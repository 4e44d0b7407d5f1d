import Stylepress.Proofs.TextLaws
import Stylepress.Web.Path

/-!
Laws of web paths. Turning back slashes round and dropping slashes at the ends is dropping slashes of either
kind first (`ofText_eq`, `diskRoot_eq`), so both forms of a path depend only on what stands between its outer
slashes; the web paths are what `ofText` leaves as it is (`ofText_eq_self_iff`). Resolving a web path adds its
names to those of the root, whatever slashes stand between them (`names_resolve`). A file name is cut at its
last dot, unless that dot is its first character (`splitName?_append`).
-/
namespace Stylepress

/-- The names that a path leads through, without the pieces that stay where they are. -/
def Disk.Path.names (path : Text) : List Text := (Text.pieces '/' path).filter fun piece => !isIdle piece

namespace WebPath

/-- A slash or a back slash. -/
def isSeparator (c : Char) : Bool := c == '/' || c == '\\'

/-- A run of slashes and back slashes. -/
def Separators (t : Text) : Prop := ∀ c ∈ t, isSeparator c = true

/-- A path from the document root: one slash in front of it, no back slash in it, and no slash at its end
    unless it is the root. -/
structure IsWebPath (web : Text) : Prop where
  start : web.head? = some '/'
  single : web.tail.head? ≠ some '/'
  forward : '\\' ∉ web
  ended : web.getLast? = some '/' → web = ['/']

/-- `name` is the last component of `web`: what stands behind its last slash, or all of it. -/
def IsLastName (web name : Text) : Prop := '/' ∉ name ∧ (web = name ∨ ∃ front, web = front ++ '/' :: name)

/-! ### Outer separators -/

/-- What stands between the outer separators of a path. -/
def inner (path : Text) : Text := Text.dropEndWhile isSeparator (path.dropWhile isSeparator)

/-- Slashes and back slashes are what becomes a slash. -/
theorem beq_slash_comp : (fun c => c == '/') ∘ (fun c => if c = '\\' then '/' else c) = isSeparator := by
  funext c
  by_cases back : c = '\\'
  · simp [back, isSeparator]
  · simp [back, isSeparator]

theorem ofText_eq (path : Text) : ofText path = '/' :: withSlashes (inner path) := by
  rw [ofText, withSlashes, List.dropWhile_map, Text.dropEndWhile_map, beq_slash_comp]
  rfl

theorem diskRoot_eq (path : Text) : diskRoot path = withSlashes (Text.dropEndWhile isSeparator path) := by
  rw [diskRoot, withSlashes, Text.dropEndWhile_map, beq_slash_comp]
  rfl

/-- Separators at the ends of a path are not part of what stands between its outer ones. -/
theorem inner_between {a b : Text} (left : Separators a) (right : Separators b) (path : Text) :
    inner (a ++ path ++ b) = inner path := by
  rw [inner, inner, List.append_assoc, List.dropWhile_append_of_pos left, List.dropWhile_append]
  split
  · next none =>
    have all : b.dropWhile isSeparator = [] := List.dropWhile_eq_nil_iff.mpr right
    rw [all, List.isEmpty_iff.mp none]
  · rw [Text.dropEndWhile_append_run right]

theorem exists_inner (path : Text) :
    ∃ a b, path = a ++ inner path ++ b ∧ Separators a ∧ Separators b := by
  obtain ⟨b, shape, right⟩ := Text.exists_dropEndWhile isSeparator (path.dropWhile isSeparator)
  refine ⟨path.takeWhile isSeparator, b, ?_, List.all_eq_true.mp List.all_takeWhile, right⟩
  rw [List.append_assoc, inner, ← shape, List.takeWhile_append_dropWhile]

theorem inner_last (path : Text) : ∀ c ∈ (inner path).getLast?, isSeparator c = false :=
  Text.dropEndWhile_last isSeparator _

theorem inner_head (path : Text) : ∀ c ∈ (inner path).head?, isSeparator c = false := by
  intro c first
  obtain ⟨run, shape, _⟩ := Text.exists_dropEndWhile isSeparator (path.dropWhile isSeparator)
  have stops := List.head?_dropWhile_not isSeparator path
  rw [shape, List.head?_append, ← inner, Option.mem_def.mp first] at stops
  simpa using stops

/-- A path without separators at its ends is all inner. -/
theorem inner_eq_self {t : Text} (head : ∀ c ∈ t.head?, isSeparator c = false)
    (last : ∀ c ∈ t.getLast?, isSeparator c = false) : inner t = t := by
  have kept : t.dropWhile isSeparator = t := by
    cases t with
    | nil => rfl
    | cons c t => rw [List.dropWhile_cons_of_neg (by simp [head c rfl])]
  rw [inner, kept, Text.dropEndWhile_eq_self last]

/-! ### Back slashes -/

theorem not_mem_withSlashes (path : Text) : '\\' ∉ withSlashes path := by
  intro member
  obtain ⟨c, _, same⟩ := List.mem_map.mp member
  by_cases back : c = '\\'
  · simp [back] at same
  · simp [back] at same

theorem withSlashes_eq_self {t : Text} (forward : '\\' ∉ t) : withSlashes t = t := by
  rw [withSlashes]
  refine (List.map_congr_left ?_).trans (List.map_id t)
  intro c member
  have other : c ≠ '\\' := fun same => forward (same ▸ member)
  rw [if_neg other]
  rfl

theorem withSlashes_withSlashes (path : Text) : withSlashes (withSlashes path) = withSlashes path :=
  withSlashes_eq_self (not_mem_withSlashes path)

/-- A slash at the start of a path was a separator there. -/
theorem head?_withSlashes_ne {t : Text} (head : ∀ c ∈ t.head?, isSeparator c = false) :
    (withSlashes t).head? ≠ some '/' := by
  cases t with
  | nil => simp [withSlashes]
  | cons c t =>
    have other : isSeparator c = false := head c rfl
    rw [← beq_slash_comp] at other
    simpa [withSlashes] using other

theorem getLast?_withSlashes_ne {t : Text} (last : ∀ c ∈ t.getLast?, isSeparator c = false) :
    (withSlashes t).getLast? ≠ some '/' := by
  have turned := head?_withSlashes_ne (t := t.reverse) (by simpa using last)
  rwa [withSlashes, List.map_reverse, List.head?_reverse] at turned

/-! ### Normal forms -/

theorem isWebPath_ofText (path : Text) : IsWebPath (ofText path) := by
  rw [ofText_eq]
  refine ⟨rfl, head?_withSlashes_ne (inner_head path), ?_, ?_⟩
  · simpa using not_mem_withSlashes (inner path)
  · intro last
    cases rest : withSlashes (inner path) with
    | nil => rfl
    | cons c rest =>
      rw [rest, List.getLast?_cons_cons, ← rest] at last
      exact absurd last (getLast?_withSlashes_ne (inner_last path))

/-- Behind its first slash, a web path has no separator at either end. -/
theorem IsWebPath.ofText_eq {web : Text} (isWeb : IsWebPath web) : ofText web = web := by
  obtain ⟨start, single, forward, ended⟩ := isWeb
  obtain ⟨rest, rfl⟩ := List.head?_eq_some_iff.mp start
  have noBack : '\\' ∉ rest := fun member => forward (List.mem_cons_of_mem _ member)
  have separator : ∀ c ∈ rest, isSeparator c = true → c = '/' := by
    intro c member isSep
    have other : c ≠ '\\' := fun same => noBack (same ▸ member)
    simpa [isSeparator, other] using isSep
  have head : ∀ c ∈ rest.head?, isSeparator c = false := by
    intro c first
    by_contra isSep
    obtain rfl := separator c (List.mem_of_mem_head? first) (by simpa using isSep)
    exact single first
  have last : ∀ c ∈ rest.getLast?, isSeparator c = false := by
    intro c final
    by_contra isSep
    obtain rfl := separator c (List.mem_of_getLast? final) (by simpa using isSep)
    have whole : ('/' :: rest).getLast? = some '/' := by rw [List.getLast?_cons, final]; rfl
    obtain ⟨_, rfl⟩ := List.cons.inj (ended whole)
    cases final
  have between := inner_between (a := ['/']) (b := []) (by simp [Separators, isSeparator])
    (by simp [Separators]) rest
  rw [List.append_nil, List.singleton_append] at between
  rw [WebPath.ofText_eq, between, inner_eq_self head last, withSlashes_eq_self noBack]

/-- The web paths are the paths that stand for themselves. -/
theorem ofText_eq_self_iff {web : Text} : ofText web = web ↔ IsWebPath web := by
  constructor
  · intro same
    rw [← same]
    exact isWebPath_ofText web
  · exact IsWebPath.ofText_eq

theorem ofText_between {a b : Text} (left : Separators a) (right : Separators b) (path : Text) :
    ofText (a ++ path ++ b) = ofText path := by
  rw [ofText_eq, ofText_eq, inner_between left right]

theorem exists_diskRoot (path : Text) :
    ∃ kept b, path = kept ++ b ∧ Separators b ∧ diskRoot path = withSlashes kept ∧
      (diskRoot path).getLast? ≠ some '/' := by
  obtain ⟨b, shape, right⟩ := Text.exists_dropEndWhile isSeparator path
  refine ⟨Text.dropEndWhile isSeparator path, b, shape, right, diskRoot_eq path, ?_⟩
  rw [diskRoot_eq]
  exact getLast?_withSlashes_ne (Text.dropEndWhile_last isSeparator path)

theorem diskRoot_diskRoot (path : Text) : diskRoot (diskRoot path) = diskRoot path := by
  obtain ⟨kept, _, _, _, same, last⟩ := exists_diskRoot path
  have noSlash : ∀ c ∈ (diskRoot path).getLast?, (c == '/') = false := by
    intro c final
    have other : c ≠ '/' := fun slash => last (slash ▸ final)
    simpa using other
  have forward : withSlashes (diskRoot path) = diskRoot path := by rw [same, withSlashes_withSlashes]
  rw [diskRoot, forward, Text.dropEndWhile_eq_self noSlash]

theorem ofText_diskRoot (path : Text) : ofText (diskRoot path) = ofText path := by
  obtain ⟨kept, b, shape, right, same, _⟩ := exists_diskRoot path
  have added := ofText_between (a := []) (by simp [Separators]) right kept
  rw [List.nil_append, ← shape] at added
  rw [added, same, ofText, withSlashes_withSlashes]
  rfl

/-! ### Resolving -/

theorem prefix_resolve (root web : Text) : root <+: resolve root web := by
  rw [resolve_eq]
  split
  · exact List.prefix_append _ _
  · exact List.prefix_append _ _

/-- A web path never makes a path absolute that its root does not make so. -/
theorem isAbsolute_resolve (root web : Text) :
    Disk.Path.isAbsolute (resolve root web) = Disk.Path.isAbsolute root := by
  cases root with
  | nil =>
    have relative : resolve [] web = web.dropWhile (· == '/') := by simp [resolve_eq]
    rw [relative, isAbsolute_dropWhile]
    rfl
  | cons c root =>
    obtain ⟨more, shape⟩ := prefix_resolve (c :: root) web
    rw [← shape]
    rfl

theorem names_append_cons (t u : Text) :
    Disk.Path.names (t ++ '/' :: u) = Disk.Path.names t ++ Disk.Path.names u := by
  rw [Disk.Path.names, Text.pieces_append_cons, List.filter_append]
  rfl

theorem names_nil : Disk.Path.names [] = [] := rfl

theorem names_dropWhile (web : Text) :
    Disk.Path.names (web.dropWhile (· == '/')) = Disk.Path.names web := by
  induction web with
  | nil => rfl
  | cons c web ih =>
    by_cases slash : c = '/'
    · have cut := names_append_cons [] web
      rw [List.nil_append, names_nil, List.nil_append] at cut
      rw [slash, List.dropWhile_cons_of_pos (by simp), ih, cut]
    · rw [List.dropWhile_cons_of_neg (by simpa using slash)]

/-- Resolving adds the names of a web path to those of the root. -/
theorem names_resolve (root web : Text) :
    Disk.Path.names (resolve root web) = Disk.Path.names root ++ Disk.Path.names web := by
  rw [resolve_eq, ← names_dropWhile web]
  by_cases none : root = []
  · simp [none, names_nil]
  · by_cases ended : root.endsWith '/' = true
    · obtain ⟨front, rfl⟩ := List.getLast?_eq_some_iff.mp (by simpa [Text.endsWith] using ended)
      rw [if_pos (by simp [ended]), List.append_assoc, List.singleton_append, names_append_cons,
        names_append_cons, names_nil, List.append_nil]
    · rw [if_neg (by simp [none, ended]), names_append_cons]

/-! ### File names -/

/-- Read from its end, a text without a character goes on past every other one. -/
theorem forall_mem_reverse_ne {t : Text} {c : Char} (absent : c ∉ t) : ∀ d ∈ t.reverse, (d != c) = true := by
  intro d member
  have other : d ≠ c := fun same => absent (same ▸ List.mem_reverse.mp member)
  simpa using other

theorem IsLastName.fileName_eq {web name : Text} (last : IsLastName web name) : fileName web = name := by
  obtain ⟨absent, rfl | ⟨front, rfl⟩⟩ := last
  · rw [fileName, List.takeWhile_eq_self_iff.mpr (forall_mem_reverse_ne absent), List.reverse_reverse]
  · rw [fileName, List.reverse_append, List.reverse_cons, List.append_assoc, List.singleton_append,
      List.takeWhile_append_of_pos (forall_mem_reverse_ne absent), List.takeWhile_cons_of_neg (by simp),
      List.append_nil, List.reverse_reverse]

theorem splitName?_of_not_mem {name : Text} (absent : '.' ∉ name) : splitName? name = none := by
  rw [splitName?, List.dropWhile_eq_nil_iff.mpr (forall_mem_reverse_ne absent)]

/-- A name is cut at its last dot. -/
theorem splitName?_append (before : Text) {after : Text} (absent : '.' ∉ after) :
    splitName? (before ++ '.' :: after) = if before.isEmpty then none else some (before, after) := by
  have behind := forall_mem_reverse_ne absent
  have turned : (before ++ '.' :: after).reverse = after.reverse ++ '.' :: before.reverse := by simp
  rw [splitName?, turned, List.dropWhile_append_of_pos behind, List.dropWhile_cons_of_neg (by simp),
    List.takeWhile_append_of_pos behind, List.takeWhile_cons_of_neg (by simp)]
  simp

theorem exists_last_dot {name : Text} (member : '.' ∈ name) :
    ∃ before after, name = before ++ '.' :: after ∧ '.' ∉ after := by
  obtain ⟨after, before, shape, absent⟩ := List.eq_append_cons_of_mem (List.mem_reverse.mpr member)
  refine ⟨before.reverse, after.reverse, ?_, by simpa using absent⟩
  rw [← List.reverse_reverse name, shape]
  simp

/-- A name has an extension exactly if a dot stands behind its first character; the extension then stands
    behind the last dot, and the stem before it. -/
theorem splitName?_cases (name : Text) :
    (∃ before after, splitName? name = some (before, after) ∧ name = before ++ '.' :: after ∧ before ≠ [] ∧
      '.' ∉ after) ∨ splitName? name = none ∧ '.' ∉ name.tail := by
  by_cases member : '.' ∈ name
  · obtain ⟨before, after, rfl, absent⟩ := exists_last_dot member
    rw [splitName?_append before absent]
    by_cases none : before = []
    · right
      simpa [none] using absent
    · left
      exact ⟨before, after, by simp [none], rfl, none, absent⟩
  · exact .inr ⟨splitName?_of_not_mem member, fun inTail => member (List.mem_of_mem_tail inTail)⟩

/-- The last component of a web path is its stem, a dot and its extension, or all stem. -/
theorem IsLastName.extension?_cases {web name : Text} (last : IsLastName web name) :
    (∃ extension, extension? web = some extension ∧ name = stem web ++ '.' :: extension ∧ stem web ≠ [] ∧
      '.' ∉ extension ∧ '.' ∈ name.tail) ∨ extension? web = none ∧ stem web = name ∧ '.' ∉ name.tail := by
  rw [extension?, stem, last.fileName_eq]
  rcases splitName?_cases name with ⟨before, after, cut, shape, filled, absent⟩ | ⟨none, noDot⟩
  · left
    refine ⟨after, by rw [cut]; rfl, ?_⟩
    rw [cut]
    refine ⟨shape, filled, absent, ?_⟩
    obtain ⟨c, more, rfl⟩ := List.exists_cons_of_ne_nil filled
    simp [shape]
  · right
    rw [none]
    exact ⟨rfl, rfl, noDot⟩

/-! ### The laws together -/

/-- A path stands for the web path of what is between its outer separators, with slashes for back slashes; as
    a directory it loses only the separators at its end. Web paths stand for themselves and nothing else does,
    both forms are taken only once, the web path can be taken of the directory, and separators at either end
    make no difference to it. Below a root it starts with the root, as text and name by name, and is absolute
    only if the root is. The last component of a path is stem, dot and extension, or all stem if no dot stands
    behind its first character. -/
theorem path_laws (path root web : Text) :
    IsWebPath (ofText path) ∧ (ofText path = path ↔ IsWebPath path) ∧
      (∃ a between b, path = a ++ between ++ b ∧ Separators a ∧ Separators b ∧
        ofText path = '/' :: withSlashes between) ∧
      (∃ kept b, path = kept ++ b ∧ Separators b ∧ diskRoot path = withSlashes kept ∧
        (diskRoot path).getLast? ≠ some '/') ∧
      (ofText (ofText path) = ofText path ∧ diskRoot (diskRoot path) = diskRoot path ∧
        ofText (diskRoot path) = ofText path) ∧
      (∀ a b, Separators a → Separators b → ofText (a ++ path ++ b) = ofText path) ∧
      (root <+: resolve root (ofText path) ∧
        Disk.Path.isAbsolute (resolve root (ofText path)) = Disk.Path.isAbsolute root ∧
        Disk.Path.names (resolve root (ofText path)) = Disk.Path.names root ++ Disk.Path.names (ofText path)) ∧
      ∀ name, IsLastName web name →
        (∀ extension, extension? web = some extension →
          name = stem web ++ '.' :: extension ∧ stem web ≠ [] ∧ '.' ∉ extension) ∧
        (extension? web = none → stem web = name) ∧ (extension? web = none ↔ '.' ∉ name.tail) := by
  obtain ⟨a, b, shape, left, right⟩ := exists_inner path
  refine ⟨isWebPath_ofText path, ofText_eq_self_iff, ⟨a, inner path, b, shape, left, right, ofText_eq path⟩,
    exists_diskRoot path,
    ⟨(isWebPath_ofText path).ofText_eq, diskRoot_diskRoot path, ofText_diskRoot path⟩,
    fun _ _ left right => ofText_between left right path,
    ⟨prefix_resolve root _, isAbsolute_resolve root _, names_resolve root _⟩, ?_⟩
  intro name last
  rcases last.extension?_cases with ⟨extension, found, parts, filled, absent, dotted⟩ | ⟨none, whole, noDot⟩
  · refine ⟨?_, ?_, ?_⟩
    · intro other same
      obtain rfl := Option.some.inj (found.symm.trans same)
      exact ⟨parts, filled, absent⟩
    · intro none
      simp [found] at none
    · simp [found, dotted]
  · refine ⟨?_, fun _ => whole, iff_of_true none noDot⟩
    intro extension found
    simp [none] at found

/-- A path with slashes of both kinds around it, and a hidden file with an extension. -/
theorem path_laws_mixed :
    Separators ['\\', '/'] ∧ Separators ['/', '\\'] ∧
      ofText (['\\', '/'] ++ ['c', '\\', '.', 'a', '.', 'b'] ++ ['/', '\\']) =
        ofText ['c', '\\', '.', 'a', '.', 'b'] ∧
      IsLastName ['/', 'c', '/', '.', 'a', '.', 'b'] ['.', 'a', '.', 'b'] ∧
      extension? ['/', 'c', '/', '.', 'a', '.', 'b'] = some ['b'] ∧
      ['.', 'a', '.', 'b'] = stem ['/', 'c', '/', '.', 'a', '.', 'b'] ++ ['.', 'b'] := by
  obtain ⟨_, _, _, _, _, around, _, names⟩ :=
    path_laws ['c', '\\', '.', 'a', '.', 'b'] ['r'] ['/', 'c', '/', '.', 'a', '.', 'b']
  have left : Separators ['\\', '/'] := by simp [Separators, isSeparator]
  have right : Separators ['/', '\\'] := by simp [Separators, isSeparator]
  have last : IsLastName ['/', 'c', '/', '.', 'a', '.', 'b'] ['.', 'a', '.', 'b'] :=
    ⟨by decide, .inr ⟨['/', 'c'], rfl⟩⟩
  have found : extension? ['/', 'c', '/', '.', 'a', '.', 'b'] = some ['b'] := by decide
  exact ⟨left, right, around _ _ left right, last, found, ((names _ last).1 _ found).1⟩

end WebPath

end Stylepress
