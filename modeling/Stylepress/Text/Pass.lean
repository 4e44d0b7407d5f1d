import Stylepress.Text.Blank

/-!
One pass over a text. A pass looks at the text from left to right; where its `front` finds a span at
the head of what is left, the span is replaced and the pass goes on behind it, and elsewhere one
character is copied. So the spans never overlap, and what a replacement writes is not looked at
again. `pass_cons` is the rule of one step.
-/
namespace Stylepress.Text

/-- What a pass does with a span at the head of the text: `tail` characters follow the span's first
    one, and `image` takes the place of the whole span. -/
structure Edit where
  tail : Nat
  image : Text
deriving DecidableEq, Repr

/-- The pass of `front` over a text whose first `n` characters belong to a span already replaced. -/
def passFrom (front : Text → Option Edit) : Nat → Text → Text
  | _, [] => []
  | n + 1, _ :: rest => passFrom front n rest
  | 0, c :: rest =>
    match front (c :: rest) with
    | none => c :: passFrom front 0 rest
    | some edit => edit.image ++ passFrom front edit.tail rest

def pass (front : Text → Option Edit) (t : Text) : Text := passFrom front 0 t

theorem passFrom_eq_drop (front : Text → Option Edit) (n : Nat) (t : Text) :
    passFrom front n t = pass front (t.drop n) := by
  induction t generalizing n with
  | nil => simp [pass, passFrom]
  | cons c rest ih =>
    cases n with
    | zero => rfl
    | succ n => simpa [passFrom] using ih n

@[simp] theorem pass_nil (front : Text → Option Edit) : pass front [] = [] := rfl

/-- One step of a pass: copy a character, or replace a span and go on behind it. -/
theorem pass_cons (front : Text → Option Edit) (c : Char) (rest : Text) :
    pass front (c :: rest) =
      match front (c :: rest) with
      | none => c :: pass front rest
      | some edit => edit.image ++ pass front (rest.drop edit.tail) := by
  rw [pass, passFrom]
  cases front (c :: rest) with
  | none => rfl
  | some edit => simp [passFrom_eq_drop]

end Stylepress.Text
