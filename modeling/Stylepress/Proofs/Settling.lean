import Stylepress.Proofs.Terminated

/-!
The passes over the semicolons before closing braces, character by character: one writes a semicolon before
each closing brace that follows neither a semicolon nor another closing brace (`restore_eq_inContext`), the
other leaves out each semicolon before a closing brace (`drop_eq_inContext`). What the first writes the second
leaves out, so dropping takes no notice of restoring (`drop_restoreFrom`); and a text in which every closing
brace is preceded as it should be is left as it is (`restoreFrom_eq_self`).
-/
namespace Stylepress.Css.Semicolon

open EmptyRuleset (isTerminator)

/-- A closing brace that follows neither a semicolon nor a closing brace is written with a semicolon. -/
def restoring (before : Text) (c : Char) (_ : Text) : Text :=
  if c = '}' ∧ before.getLast?.any isTerminator = false then [';', c] else [c]

/-- A semicolon right before a closing brace is not written. -/
def dropping (_ : Text) (c : Char) (rest : Text) : Text :=
  if c = ';' ∧ rest.head? = some '}' then [] else [c]

/-! ### Dropping -/

theorem drop_cons (before : Text) (c : Char) (rest : Text) :
    drop (c :: rest) = dropping before c rest ++ drop rest := by
  by_cases redundant : c = ';' ∧ rest.head? = some '}'
  · obtain ⟨rfl, first⟩ := redundant
    obtain ⟨more, rfl⟩ := List.head?_eq_some_iff.mp first
    rw [dropping, if_pos ⟨rfl, rfl⟩, drop, List.nil_append, drop.eq_3 _ _ (by simp)]
  · have kept : ∀ more, c = ';' → rest = '}' :: more → False := by
      rintro more rfl rfl
      exact redundant ⟨rfl, rfl⟩
    rw [dropping, if_neg redundant, drop.eq_3 _ _ kept]
    rfl

theorem drop_eq_inContext (css : Text) : drop css = Text.inContext dropping [] css :=
  Text.eq_inContext (fun _ => drop) (fun _ => rfl) drop_cons [] css

/-! ### Restoring -/

theorem restoreFrom_cons (ended : Bool) (c : Char) (rest : Text) :
    restoreFrom ended (c :: rest) =
      (if c = '}' ∧ ended = false then [';', c] else [c]) ++ restoreFrom (isTerminator c) rest := by
  by_cases brace : c = '}'
  · cases ended <;> simp [restoreFrom, brace, isTerminator]
  · have same : isTerminator c = (c == ';') := by simp [isTerminator, brace]
    simp [restoreFrom, brace, same]

theorem restore_eq_inContext (css : Text) : restore css = Text.inContext restoring [] css := by
  refine Text.eq_inContext (fun before => restoreFrom (before.getLast?.any isTerminator))
    (fun _ => rfl) ?_ [] css
  intro before c rest
  rw [restoreFrom_cons, restoring, List.getLast?_concat]
  rfl

/-- A text that starts behind a semicolon or a closing brace starts as it did. -/
theorem head?_restoreFrom_true (t : Text) : (restoreFrom true t).head? = t.head? := by
  cases t with
  | nil => rfl
  | cons c t => simp [restoreFrom_cons]

/-- The semicolons that are restored are among those that are dropped. -/
theorem drop_restoreFrom (ended : Bool) (t : Text) : drop (restoreFrom ended t) = drop t := by
  induction t generalizing ended with
  | nil => rfl
  | cons c rest ih =>
    rw [restoreFrom_cons, drop_cons [] c rest]
    by_cases added : c = '}' ∧ ended = false
    · rw [if_pos added, List.cons_append, drop_cons [], List.singleton_append, drop_cons [], ih, added.1]
      rfl
    · rw [if_neg added, List.singleton_append, drop_cons [], ih]
      by_cases semicolon : c = ';'
      · -- Behind a semicolon nothing is added, so the same character follows.
        rw [semicolon, dropping, dropping, show isTerminator ';' = true from rfl, head?_restoreFrom_true]
      · simp [dropping, semicolon]

theorem restoreFrom_eq_self {ended : Bool} {t : Text} (chain : t.IsChain Terminates)
    (start : t.head? = some '}' → ended = true) : restoreFrom ended t = t := by
  induction t generalizing ended with
  | nil => rfl
  | cons c rest ih =>
    obtain ⟨next, later⟩ := List.isChain_cons.mp chain
    have kept : ¬ (c = '}' ∧ ended = false) := by
      rintro ⟨rfl, notEnded⟩
      simp [start rfl] at notEnded
    have behind : rest.head? = some '}' → isTerminator c = true := by
      intro first
      rcases next '}' first rfl with rfl | rfl
      · rfl
      · rfl
    rw [restoreFrom_cons, if_neg kept, ih later behind]
    rfl

theorem restore_restore (css : Text) : restore (restore css) = restore css :=
  restoreFrom_eq_self (isChain_restoreFrom false css) ended_of_head?_restoreFrom

/-- Before every closing brace of a restored text stands a semicolon or a closing brace. -/
theorem getLast?_of_restore_eq {css a b : Text} (shape : restore css = a ++ '}' :: b) :
    a.getLast? = some ';' ∨ a.getLast? = some '}' := by
  obtain rfl | ⟨front, c, rfl⟩ := List.eq_nil_or_concat a
  · have first : (restore css).head? = some '}' := by rw [shape]; rfl
    exact absurd (ended_of_head?_restoreFrom first) (by simp)
  · have chain := isChain_restoreFrom false css
    rw [← restore, shape, List.concat_eq_append, List.append_assoc] at chain
    have pair := (List.isChain_cons_cons.mp chain.right_of_append).1 rfl
    simpa using pair

/-! ### Settling -/

theorem settle_low (css : Text) : settle .low css = restore css := rfl

theorem settle_of_dropping {level : Level} (above : level = .medium ∨ level = .high) (css : Text) :
    settle level css = drop css := by
  rcases above with rfl | rfl
  · rfl
  · rfl

/-- At `low` a semicolon is written before exactly the closing braces that follow neither a semicolon nor a
    closing brace, so that one of the two stands before each of them; doing it again changes nothing. At `medium`
    and `high` exactly the semicolons before closing braces are left out, with those that `low` has written. -/
theorem settled_by_level (css : Text) :
    (∀ a b, restore css = a ++ '}' :: b → a.getLast? = some ';' ∨ a.getLast? = some '}') ∧
      restore (restore css) = restore css ∧
      settle .low css = restore css ∧ restore css = Text.inContext restoring [] css ∧
      ∀ level, level = .medium ∨ level = .high →
        settle level (settle .low css) = settle level css ∧
          settle level css = Text.inContext dropping [] css := by
  refine ⟨fun _ _ => getLast?_of_restore_eq, restore_restore css, settle_low css, restore_eq_inContext css, ?_⟩
  intro level above
  rw [settle_of_dropping above, settle_of_dropping above, settle_low]
  exact ⟨drop_restoreFrom false css, drop_eq_inContext css⟩

/-- A closing brace at the start, an empty body, and two semicolons before closing braces. -/
def mixedBraces : Text := ['}', 'a', '{', '}', ';', ';', '}', '}']

theorem settled_by_level_mixed :
    restore mixedBraces = [';', '}', 'a', '{', ';'] ++ '}' :: [';', ';', '}', '}'] ∧
      ([';', '}', 'a', '{', ';'].getLast? = some ';' ∨ [';', '}', 'a', '{', ';'].getLast? = some '}') ∧
      settle .high (settle .low mixedBraces) = settle .high mixedBraces ∧
      settle .high mixedBraces = ['}', 'a', '{', '}', ';', '}', '}'] := by
  obtain ⟨preceded, _, _, _, levels⟩ := settled_by_level mixedBraces
  have shape : restore mixedBraces = [';', '}', 'a', '{', ';'] ++ '}' :: [';', ';', '}', '}'] := by decide
  exact ⟨shape, preceded _ _ shape, (levels .high (.inr rfl)).1, by decide⟩

end Stylepress.Css.Semicolon
