/-!
Lists cut at separators. There is one segment more than there are separators, and the segments
joined by the separators make up the list.
-/

namespace CssOutline

/-- The parts of a list between the elements that satisfy `p`. -/
def segments {α : Type _} (p : α → Bool) : List α → List (List α)
  | [] => [[]]
  | x :: xs =>
    if p x then [] :: segments p xs
    else
      match segments p xs with
      | [] => [[x]]
      | s :: ss => (x :: s) :: ss

theorem length_segments {α : Type _} (p : α → Bool) (xs : List α) :
    (segments p xs).length = xs.countP p + 1 := by
  induction xs with
  | nil => rfl
  | cons x xs ih =>
    unfold segments
    split
    · rename_i h
      simp [ih, h]
    · rename_i h
      rw [List.countP_cons_of_neg h]
      split
      · rename_i eq
        simp [eq] at ih
      · rename_i s ss eq
        simpa [eq] using ih

end CssOutline
