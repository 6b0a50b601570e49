/-! Byte offsets into a text. Every offset counts the UTF-8 bytes before a position. -/
namespace Ambient.Text

def byteLength : List Char → Nat
  | [] => 0
  | c :: r => c.utf8Size + byteLength r

/-- The characters that remain after `n` bytes; a character that is cut goes. -/
def dropBytes : Nat → List Char → List Char
  | 0, cs => cs
  | _, [] => []
  | n + 1, c :: r => dropBytes (n + 1 - c.utf8Size) r

/-- The characters that end within the first `n` bytes. -/
def takeBytes : Nat → List Char → List Char
  | _, [] => []
  | n, c :: r => if c.utf8Size ≤ n then c :: takeBytes (n - c.utf8Size) r else []

def slice (cs : List Char) (start stop : Nat) : List Char :=
  takeBytes (stop - start) (dropBytes start cs)

theorem byteLength_append (xs ys : List Char) :
    byteLength (xs ++ ys) = byteLength xs + byteLength ys := by
  induction xs with
  | nil => simp [byteLength]
  | cons c r ih => simp [byteLength, ih, Nat.add_assoc]

theorem byteLength_pos (c : Char) (r : List Char) : 0 < byteLength (c :: r) := by
  have positive := c.utf8Size_pos
  rw [byteLength]
  omega

/-- Of two texts with the same continuation, the one with fewer bytes begins the other. -/
theorem exists_append_of_byteLength_le {a b c d : List Char} (whole : a ++ b = c ++ d)
    (order : byteLength a ≤ byteLength c) : ∃ e, c = a ++ e := by
  rcases List.append_eq_append_iff.mp whole with ⟨e, rfl, -⟩ | ⟨e, rfl, -⟩
  · exact ⟨e, rfl⟩
  · cases e with
    | nil => exact ⟨[], by simp⟩
    | cons f e =>
      have positive := byteLength_pos f e
      rw [byteLength_append] at order
      omega

end Ambient.Text
