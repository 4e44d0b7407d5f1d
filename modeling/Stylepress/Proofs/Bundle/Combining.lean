import Stylepress.Proofs.Bundle.Overwriting
import Stylepress.Proofs.Sniffing

/-!
Whether accepted sources can be combined. Sniffing forgives a last character that is cut, since the window
may have cut it, but combining does not. So a source that is no longer than the window can be accepted and
yet not be read: if its own last character is cut, and only then (`combine_opened_iff`).
-/
namespace Stylepress

/-! ### Reading the sources -/

namespace Source
variable {disk : Disk} {sources : List Source}

theorem exists_combine_iff :
    (∃ css, combine disk sources = .ok css) ↔
      ∀ source ∈ sources, ∃ css, disk.readText source.path = .ok css := by
  induction sources with
  | nil => simp [combine]
  | cons source rest ih =>
    rw [List.forall_mem_cons, ← ih, combine]
    cases disk.readText source.path with
    | error fault => simp
    | ok css => cases combine disk rest <;> simp

/-- Combining stops at the first source that cannot be read. -/
theorem exists_of_combine_eq_error {error : BundleError} (failed : combine disk sources = .error error) :
    ∃ before source after fault, sources = before ++ source :: after ∧
      (∀ earlier ∈ before, ∃ css, disk.readText earlier.path = .ok css) ∧
      disk.readText source.path = .error fault ∧ error = .unreadable source.path fault := by
  induction sources with
  | nil => cases failed
  | cons source rest ih =>
    rw [combine] at failed
    cases read : disk.readText source.path with
    | error fault =>
      simp only [read] at failed
      exact ⟨[], source, rest, fault, rfl, List.forall_mem_nil _, read, (Except.error.inj failed).symm⟩
    | ok css =>
      cases others : combine disk rest with
      | ok text => simp [read, others] at failed
      | error other =>
        simp only [read, others] at failed
        obtain rfl := Except.error.inj failed
        obtain ⟨before, blamed, after, fault, rfl, readable, unread, cause⟩ := ih others
        refine ⟨source :: before, blamed, after, fault, rfl, ?_, unread, cause⟩
        exact List.forall_mem_cons.mpr ⟨⟨css, read⟩, readable⟩

end Source

namespace Disk
variable {disk : Disk} {path : Text}

theorem readText_of_encode {t : Text} (read : disk.readBytes path = .ok (Utf8.encode t)) :
    disk.readText path = .ok t := by
  rw [readText, read]
  simp only [Utf8.decode?_encode]

theorem readText_of_endsInside {content : Bytes} (read : disk.readBytes path = .ok content)
    (inside : Utf8.EndsInside content) : disk.readText path = .error .notText := by
  have cut := Utf8.cut_iff.mpr inside
  have undecoded : Utf8.decode? content = none := by
    rw [Utf8.decode?]
    split
    · next done =>
      rw [done] at cut
      cases cut
    · rfl
  rw [readText, read]
  simp only [undecoded]

end Disk

namespace Bundle

/-! ### Small sources -/

/-- A small source that is accepted as a text is one, or the start of one. -/
theorem text_or_endsInside {disk : Disk} {request : BundleRequest} {bundle : Bundle}
    (opened : openOn disk request = .ok bundle)
    (textOnly : "application/octet-stream" ∉ request.policy.mediaTypes) {source : Source}
    (member : source ∈ bundle.sources)
    (small : ∀ content, disk.readBytes source.path = .ok content → content.length ≤ 8192) :
    ∃ content, disk.readBytes source.path = .ok content ∧
      ((∃ t, content = Utf8.encode t) ∨ Utf8.EndsInside content) := by
  obtain ⟨root, sources, target, _, checked, _, rfl⟩ := openOn_eq_ok opened
  obtain ⟨⟨_, _, media, sniffed, accepts⟩, _, path, content, present⟩ :=
    Source.examine_eq_ok_iff.mp (Source.examine_of_mem checked member)
  have read : disk.readBytes source.path = .ok content := by rw [path, Disk.readBytes, present]
  have seen : Media.ofBytes content = media := by
    rw [← path, Media.sniff?, read] at sniffed
    exact Option.some.inj sniffed
  -- The policy lists the sniffed type, which leaves only that of a text.
  have plain : Media.ofBytes content = .plainText := by
    rw [Policy.accepts, List.contains_iff_mem] at accepts
    cases media with
    | plainText => exact seen
    | binary => exact absurd accepts textOnly
  exact ⟨content, read, ((Media.ofBytes_eq_plainText_iff (small content read)).mp plain).2⟩

/-- A small source that is accepted as a text can be read exactly if its bytes do not end inside a
    character. -/
theorem exists_readText_iff {disk : Disk} {request : BundleRequest} {bundle : Bundle}
    (opened : openOn disk request = .ok bundle)
    (textOnly : "application/octet-stream" ∉ request.policy.mediaTypes) {source : Source}
    (member : source ∈ bundle.sources)
    (small : ∀ content, disk.readBytes source.path = .ok content → content.length ≤ 8192) :
    (∃ css, disk.readText source.path = .ok css) ↔
      ∀ content, disk.readBytes source.path = .ok content → ¬ Utf8.EndsInside content := by
  constructor
  · rintro ⟨css, legible⟩ content read inside
    rw [Disk.readText_of_endsInside read inside] at legible
    cases legible
  · intro whole
    obtain ⟨content, read, ⟨t, rfl⟩ | inside⟩ := text_or_endsInside opened textOnly member small
    · exact ⟨t, Disk.readText_of_encode read⟩
    · exact absurd inside (whole content read)

/-- Small sources that were accepted as texts can be combined, unless the bytes of one of them end inside a
    character; then combining stops at the first such source. -/
theorem combine_opened_iff {disk : Disk} {request : BundleRequest} {bundle : Bundle}
    (opened : openOn disk request = .ok bundle)
    (textOnly : "application/octet-stream" ∉ request.policy.mediaTypes)
    (small : ∀ source ∈ bundle.sources, ∀ content,
      disk.readBytes source.path = .ok content → content.length ≤ 8192) :
    ((∃ css, Source.combine disk bundle.sources = .ok css) ↔
      ∀ source ∈ bundle.sources, ∀ content,
        disk.readBytes source.path = .ok content → ¬ Utf8.EndsInside content) ∧
      ∀ error, Source.combine disk bundle.sources = .error error →
        ∃ before source after content, bundle.sources = before ++ source :: after ∧
          (∀ earlier ∈ before, ∃ css, disk.readText earlier.path = .ok css) ∧
          disk.readBytes source.path = .ok content ∧ Utf8.EndsInside content ∧
          error = .unreadable source.path .notText := by
  constructor
  · rw [Source.exists_combine_iff]
    refine forall₂_congr fun source member => ?_
    exact exists_readText_iff opened textOnly member (small source member)
  · intro error failed
    obtain ⟨before, source, after, fault, split, readable, unread, cause⟩ :=
      Source.exists_of_combine_eq_error failed
    have member : source ∈ bundle.sources := by simp [split]
    obtain ⟨content, read, ⟨t, rfl⟩ | inside⟩ :=
      text_or_endsInside opened textOnly member (small source member)
    · rw [Disk.readText_of_encode read] at unread
      cases unread
    · rw [Disk.readText_of_endsInside read inside] at unread
      obtain rfl := Except.error.inj unread
      exact ⟨before, source, after, content, split, readable, read, inside, cause⟩

theorem combine_opened_small :
    openOn smallDisk (smallRequest otherTarget.web) = .ok (smallBundle otherTarget) ∧
      ∃ css, Source.combine smallDisk (smallBundle otherTarget).sources = .ok css := by
  have read : smallDisk.readBytes smallSource.path =
      .ok (Utf8.encode ['a', ' ', '{', ' ', 'b', ':', ' ', 'c', ' ', '}', '\n']) := rfl
  have only : ∀ source ∈ (smallBundle otherTarget).sources, source = smallSource := by simp [smallBundle]
  refine ⟨openOn_other, (combine_opened_iff openOn_other (by decide) ?_).1.mpr ?_⟩
  · intro source member content found
    rw [only source member, read] at found
    obtain rfl := Except.ok.inj found
    decide
  · intro source member content found inside
    rw [only source member, read] at found
    obtain rfl := Except.ok.inj found
    have cut := Utf8.cut_iff.mpr inside
    rw [Utf8.read_encode] at cut
    cases cut

/-- The stylesheet `public/css/a.css` ends with the first byte of a character of two bytes. -/
def cutDisk : Disk :=
  (Disk.bare [] 0).putFile 0 [['p', 'u', 'b', 'l', 'i', 'c'], ['c', 's', 's'], ['a', '.', 'c', 's', 's']]
    (Utf8.encode ['a', '{', 'b', ':', 'c', '}'] ++ [0xC3]) 1

/-- A small source that is no text is accepted, and then cannot be combined. -/
theorem not_combine_cut :
    openOn cutDisk (smallRequest otherTarget.web) = .ok (smallBundle otherTarget) ∧
      "application/octet-stream" ∉ (smallRequest otherTarget.web).policy.mediaTypes ∧
      (∀ source ∈ (smallBundle otherTarget).sources, ∀ content,
        cutDisk.readBytes source.path = .ok content → content.length ≤ 8192) ∧
      Source.combine cutDisk (smallBundle otherTarget).sources =
        .error (.unreadable smallSource.path .notText) := by
  refine ⟨rfl, by decide, ?_, rfl⟩
  intro source member content found
  obtain rfl : source = smallSource := by simpa [smallBundle] using member
  obtain rfl : Utf8.encode ['a', '{', 'b', ':', 'c', '}'] ++ [0xC3] = content := Except.ok.inj found
  decide

end Bundle

end Stylepress
