/-
Places in bytes and in characters.

Lexers count the bytes of a source and diagnostics its characters; the two agree
where a character begins.

* `byteLength` — the number of bytes of characters;
* `charIndex` — the number of characters before a byte;
* `charIndex_byteLength` — the bytes of the first characters of a text lead to the
  number of those characters.
-/

namespace ReversibleGrammar.Text

/-- The number of bytes of characters. -/
def byteLength : List Char → Nat
  | [] => 0
  | c :: cs => c.utf8Size + byteLength cs

@[simp] theorem byteLength_append (cs ds : List Char) :
    byteLength (cs ++ ds) = byteLength cs + byteLength ds := by
  induction cs with
  | nil => simp [byteLength]
  | cons c cs ih => simp [byteLength, ih, Nat.add_assoc]

/-- A character has a byte at least. -/
theorem length_le_byteLength (cs : List Char) : cs.length ≤ byteLength cs := by
  induction cs with
  | nil => exact Nat.le_refl 0
  | cons c cs ih =>
    have hc : 0 < c.utf8Size := c.utf8Size_pos
    simp only [byteLength, List.length_cons]
    omega

/-- The number of characters before a byte, if a character begins there, after `index` others. -/
def charIndexFrom? (index : Nat) : List Char → Nat → Option Nat
  | _, 0 => some index
  | [], _ + 1 => none
  | c :: cs, byte =>
    if c.utf8Size ≤ byte then charIndexFrom? (index + 1) cs (byte - c.utf8Size) else none

/-- The number of characters before a byte; the byte itself if no character begins there. -/
def charIndex (cs : List Char) (byte : Nat) : Nat := (charIndexFrom? 0 cs byte).getD byte

theorem charIndexFrom?_byteLength (index : Nat) (cs ds : List Char) :
    charIndexFrom? index (cs ++ ds) (byteLength cs) = some (index + cs.length) := by
  induction cs generalizing index with
  | nil => simp [byteLength, charIndexFrom?]
  | cons c cs ih =>
    obtain ⟨n, hn⟩ := Nat.exists_eq_succ_of_ne_zero (Nat.ne_of_gt c.utf8Size_pos)
    have hb : byteLength (c :: cs) = n + byteLength cs + 1 := by
      rw [byteLength, hn]
      omega
    have hle : c.utf8Size ≤ n + byteLength cs + 1 := by omega
    have hsub : n + byteLength cs + 1 - c.utf8Size = byteLength cs := by omega
    rw [hb, List.cons_append, charIndexFrom?, if_pos hle, hsub, ih]
    · rw [List.length_cons]
      congr 1
      omega
    · exact Nat.succ_ne_zero _

/-- The bytes of the first characters lead to their number. -/
theorem charIndex_byteLength (cs ds : List Char) :
    charIndex (cs ++ ds) (byteLength cs) = cs.length := by
  rw [charIndex, charIndexFrom?_byteLength, Option.getD_some, Nat.zero_add]

end ReversibleGrammar.Text
