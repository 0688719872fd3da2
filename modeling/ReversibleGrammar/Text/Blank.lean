/-
White space, and the two uses made of it: a document ends before its trailing
white space, and a list of words is written with white space between them.

* `not_isBlank_of_mem_words` — no word holds a blank;
* `trimEnd_append_blanks` — trailing blanks make no difference to a document.
-/
import ReversibleGrammar.Text.Range

namespace ReversibleGrammar.Text

/-- The code points with the property White_Space. -/
def blankRanges : Ranges :=
  [(0x9, 0xD), (0x20, 0x20), (0x85, 0x85), (0xA0, 0xA0), (0x1680, 0x1680), (0x2000, 0x200A),
   (0x2028, 0x2029), (0x202F, 0x202F), (0x205F, 0x205F), (0x3000, 0x3000)]

/-- White space of any script. -/
def isBlank (c : Char) : Bool := blankRanges.holds c

/-- The characters without the longest final run of those that `drops` accepts. -/
def dropEndWhile (drops : Char → Bool) (cs : List Char) : List Char :=
  (cs.reverse.dropWhile drops).reverse

theorem dropEndWhile_append {drops : Char → Bool} (cs : List Char) {tail : List Char}
    (h : ∀ c ∈ tail, drops c = true) :
    dropEndWhile drops (cs ++ tail) = dropEndWhile drops cs := by
  have hr : ∀ c ∈ tail.reverse, drops c = true := fun c hc => h c (List.mem_reverse.1 hc)
  simp [dropEndWhile, List.dropWhile_append_of_pos hr]

/-- The text without its trailing white space. -/
def trimEnd (s : String) : String := String.ofList (dropEndWhile isBlank s.toList)

theorem trimEnd_append_blanks (cs : List Char) {tail : List Char}
    (h : ∀ c ∈ tail, isBlank c = true) :
    trimEnd (String.ofList (cs ++ tail)) = trimEnd (String.ofList cs) := by
  simp [trimEnd, dropEndWhile_append cs h]

/-- The words of `cs`, where `word` holds the characters of the current one, last first. -/
def wordsFrom (word : List Char) : List Char → List String
  | [] => if word.isEmpty then [] else [String.ofList word.reverse]
  | c :: cs =>
    if isBlank c then
      if word.isEmpty then wordsFrom [] cs else String.ofList word.reverse :: wordsFrom [] cs
    else wordsFrom (c :: word) cs

/-- The words of a text: its longest parts without white space. -/
def words (s : String) : List String := wordsFrom [] s.toList

theorem not_isBlank_of_mem_wordsFrom {cs word : List Char}
    (hw : ∀ c ∈ word, isBlank c = false) {w : String} (h : w ∈ wordsFrom word cs) :
    ∀ c ∈ w.toList, isBlank c = false := by
  induction cs generalizing word with
  | nil =>
    by_cases he : word.isEmpty
    · simp [wordsFrom, he] at h
    · simp only [wordsFrom, he, Bool.false_eq_true, if_false, List.mem_singleton] at h
      subst h
      intro c hc
      exact hw c (by simpa using hc)
  | cons d cs ih =>
    by_cases hd : isBlank d = true
    · by_cases he : word.isEmpty
      · simp only [wordsFrom, hd, he, if_true] at h
        exact ih (by simp) h
      · simp only [wordsFrom, hd, he, if_true, Bool.false_eq_true, if_false, List.mem_cons] at h
        rcases h with rfl | h
        · intro c hc
          exact hw c (by simpa using hc)
        · exact ih (by simp) h
    · simp only [wordsFrom, hd, Bool.false_eq_true, if_false] at h
      refine ih ?_ h
      intro c hc
      rcases List.mem_cons.1 hc with rfl | hc
      · simpa using hd
      · exact hw c hc

/-- No word holds a blank. -/
theorem not_isBlank_of_mem_words {s w : String} (h : w ∈ words s) :
    ∀ c ∈ w.toList, isBlank c = false :=
  not_isBlank_of_mem_wordsFrom (by simp) h

end ReversibleGrammar.Text
