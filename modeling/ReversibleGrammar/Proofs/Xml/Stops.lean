/-
Where the parts of a document stop.

Whether a part matches is seen from the kinds of a few tokens.  Attributes and content go
on as long as one more comes, and what may follow them is not the start of one more, so
that only their longest match leads to a match of the element.

* `kind?` — the kinds of tokens;
* `stops_attribute`, `stops_content`, `stops_closing`, `stops_opened`, `stops_element` — part
  by part;
* `steady_attributes`, `steady_content` — each part matches in at most one way.
-/
import ReversibleGrammar.Proofs.Grammar.Steady
import ReversibleGrammar.Proofs.Xml.Grammar

namespace ReversibleGrammar

namespace Xml

/-- The kind of the token at a position. -/
def kind? (tokens : Array LexToken) (i : Nat) : Option String := tokens[i]?.map LexToken.kind

/-- Where the attributes from a position end, as far as they go. -/
def attributesEnd (read : Readings LexToken) (i : Nat) : Nat := (read.stops 2 i).headD i

/-- Where the content from a position ends, as far as it goes. -/
def contentEnd (read : Readings LexToken) (i : Nat) : Nat := (read.stops 5 i).headD i

section

variable {tokens : Array LexToken} {read : Readings LexToken} {i j : Nat}

theorem lt_size_of_kind? {k : String} (h : kind? tokens i = some k) : i < tokens.size := by
  obtain ⟨token, htoken, -⟩ := Option.map_eq_some_iff.1 h
  exact (Array.getElem?_eq_some_iff.1 htoken).1

/-! ### Tokens, marks and references -/

theorem stops_token (hsolves : read.Solves grammar tokens) (id : PatternId) {p : Pattern}
    (hp : patterns[id]? = some p) {k : String} (hkind : p.kind = .consume k)
    (hi : i ≤ tokens.size) :
    read.stops id i = if kind? tokens i = some k then [i + 1] else [] := by
  rw [stops_consume hsolves ((pattern?_grammar id).trans hp) hkind hi, kind?]
  cases tokens[i]? with
  | none => rfl
  | some token => simp [Token.is]

theorem stops_reference (hsolves : read.Solves grammar tokens) (id body : PatternId) {p : Pattern}
    (hp : patterns[id]? = some p) {rule : RuleId} (hkind : p.kind = .thunk rule)
    (hbody : ([30, 24, 17] : List PatternId)[rule]? = some body) (hi : i ≤ tokens.size) :
    read.stops id i = read.stops body i := by
  have hwrapped : p.kind.wrapped? grammar = some (.thunk, body) := by
    rw [hkind, PatternKind.wrapped?, ruleBody?_grammar, hbody]
    rfl
  exact stops_wrapped hsolves ((pattern?_grammar id).trans hp) hwrapped hi

/-- A sequence goes on after a token. -/
theorem stopsAll_token (hsolves : read.Solves grammar tokens) {id : PatternId} {p : Pattern}
    (hp : patterns[id]? = some p) {k : String} (hkind : p.kind = .consume k)
    (h : kind? tokens i = some k) (later : List PatternId) :
    read.stopsAll (id :: later) i = read.stopsAll later (i + 1) := by
  rw [Readings.stopsAll, stops_token hsolves id hp hkind (lt_size_of_kind? h).le, if_pos h,
    List.flatMap_singleton]

/-- A sequence does not go on without it. -/
theorem stopsAll_of_ne (hsolves : read.Solves grammar tokens) {id : PatternId} {p : Pattern}
    (hp : patterns[id]? = some p) {k : String} (hkind : p.kind = .consume k)
    (hi : i ≤ tokens.size) (h : kind? tokens i ≠ some k) (later : List PatternId) :
    read.stopsAll (id :: later) i = [] := by
  rw [Readings.stopsAll, stops_token hsolves id hp hkind hi, if_neg h, List.flatMap_nil]

theorem stopsAll_mark (hsolves : read.Solves grammar tokens) {id : PatternId} {p : Pattern}
    (hp : patterns[id]? = some p) {marker : Marker} (hkind : p.kind.mark? = some marker)
    (hi : i ≤ tokens.size) (later : List PatternId) :
    read.stopsAll (id :: later) i = read.stopsAll later i := by
  rw [Readings.stopsAll, stops_mark hsolves ((pattern?_grammar id).trans hp) hkind hi,
    List.flatMap_singleton]

/-! ### Attributes -/

theorem stops_attribute (hsolves : read.Solves grammar tokens) (hi : i ≤ tokens.size) :
    read.stops 0 i = if kind? tokens i = some "name" ∧ kind? tokens (i + 1) = some "=" ∧
      kind? tokens (i + 2) = some "string" then [i + 3] else [] := by
  rw [stops_reference hsolves 0 30 rfl rfl rfl hi,
    stops_sequence hsolves (pattern?_grammar 30) rfl hi]
  by_cases hname : kind? tokens i = some "name"
  · have hi := lt_size_of_kind? hname
    rw [stopsAll_token hsolves rfl rfl hname]
    by_cases heq : kind? tokens (i + 1) = some "="
    · have hi := lt_size_of_kind? heq
      rw [stopsAll_token hsolves rfl rfl heq, stopsAll_mark hsolves rfl rfl hi]
      by_cases hstring : kind? tokens (i + 2) = some "string"
      · rw [stopsAll_token hsolves rfl rfl hstring,
          stopsAll_mark hsolves rfl rfl (lt_size_of_kind? hstring), if_pos ⟨hname, heq, hstring⟩]
        rfl
      · rw [stopsAll_of_ne hsolves rfl rfl hi hstring, if_neg fun h => hstring h.2.2]
    · rw [stopsAll_of_ne hsolves rfl rfl hi heq, if_neg fun h => heq h.2.1]
  · rw [stopsAll_of_ne hsolves rfl rfl hi hname, if_neg fun h => hname h.1]

/-- Attributes are told apart by their first token. -/
theorem kind?_of_mem_attribute (hsolves : read.Solves grammar tokens) (hi : i ≤ tokens.size)
    (hj : j ∈ read.stops 0 i) : kind? tokens i = some "name" ∧ kind? tokens (i + 1) = some "=" ∧
      kind? tokens (i + 2) = some "string" ∧ j = i + 3 := by
  rw [stops_attribute hsolves hi] at hj
  split at hj
  · rename_i h
    exact ⟨h.1, h.2.1, h.2.2, List.mem_singleton.1 hj⟩
  · cases hj

theorem steady_attributes (hsolves : read.Solves grammar tokens) (i : Nat) :
    read.Steady 0 (some 1) tokens.size i where
  length_le j _ hj := by
    rw [stops_attribute hsolves hj]
    split <;> simp
  lt j _ hj k hk := by
    obtain ⟨-, -, -, rfl⟩ := kind?_of_mem_attribute hsolves hj hk
    omega
  separator s hs j hj := by
    obtain rfl := Option.some.inj hs
    exact stops_mark hsolves (pattern?_grammar 1) rfl hj

/-- The indented attributes of an element stop where the attributes do. -/
theorem stops_indented (hsolves : read.Solves grammar tokens) (hi : i ≤ tokens.size) :
    read.stops 16 i = read.stops 2 i := by
  have hgroup : read.stops 14 i = read.stops 2 i :=
    stops_wrapped hsolves (pattern?_grammar 14) rfl hi
  have hconditional : read.stops 15 i = read.stops 14 i :=
    stops_wrapped hsolves (pattern?_grammar 15) rfl hi
  have hindent : read.stops 16 i = read.stops 15 i :=
    stops_wrapped hsolves (pattern?_grammar 16) rfl hi
  rw [hindent, hconditional, hgroup]

/-- Attributes go on as long as one more comes. -/
theorem stops_attributes (hsolves : read.Solves grammar tokens)
    (hread : read.Forward grammar tokens.size) (hi : i ≤ tokens.size) :
    ∃ rest, read.stops 2 i = attributesEnd read i :: rest ∧
      i ≤ attributesEnd read i ∧ attributesEnd read i ≤ tokens.size ∧
      ∀ j ∈ rest, i ≤ j ∧ j < attributesEnd read i ∧ kind? tokens j = some "name" := by
  obtain ⟨m, rest, hstops, -, hrest⟩ := stops_longest hsolves hread (pattern?_grammar 2) rfl hi
    (steady_attributes hsolves i)
  have hrange : ∀ j ∈ read.stops 2 i, i ≤ j ∧ j ≤ tokens.size := by
    intro j hj
    obtain ⟨y, hy, rfl⟩ := mem_stops.1 hj
    exact ⟨(hread 2 i hi y hy).1, (hread 2 i hi y hy).2.1⟩
  rw [hstops] at hrange
  obtain ⟨him, hm⟩ := hrange m List.mem_cons_self
  rw [attributesEnd, hstops, List.headD_cons]
  refine ⟨rest, rfl, him, hm, fun j hj => ?_⟩
  obtain ⟨hij, hj'⟩ := hrange j (List.mem_cons_of_mem m hj)
  obtain ⟨k, hk, hle⟩ := hrest j hj
  obtain ⟨hname, -, -, rfl⟩ := kind?_of_mem_attribute hsolves hj' hk
  exact ⟨hij, by omega, hname⟩

/-! ### Closings -/

theorem stops_closingTag (hsolves : read.Solves grammar tokens) (hi : i ≤ tokens.size) :
    read.stopsAll [6, 7, 8] i = if kind? tokens i = some "</" ∧
      kind? tokens (i + 1) = some "name" ∧ kind? tokens (i + 2) = some ">" then [i + 3]
      else [] := by
  by_cases hopen : kind? tokens i = some "</"
  · have hi := lt_size_of_kind? hopen
    rw [stopsAll_token hsolves rfl rfl hopen]
    by_cases hname : kind? tokens (i + 1) = some "name"
    · have hi := lt_size_of_kind? hname
      rw [stopsAll_token hsolves rfl rfl hname]
      by_cases hclose : kind? tokens (i + 2) = some ">"
      · rw [stopsAll_token hsolves rfl rfl hclose, if_pos ⟨hopen, hname, hclose⟩]
        rfl
      · rw [stopsAll_of_ne hsolves rfl rfl hi hclose, if_neg fun h => hclose h.2.2]
    · rw [stopsAll_of_ne hsolves rfl rfl hi hname, if_neg fun h => hname h.2.1]
  · rw [stopsAll_of_ne hsolves rfl rfl hi hopen, if_neg fun h => hopen h.1]

theorem stops_opened_of_ne (hsolves : read.Solves grammar tokens) (hi : i ≤ tokens.size)
    (h : kind? tokens i ≠ some ">") : read.stops 9 i = [] := by
  rw [stops_sequence hsolves (pattern?_grammar 9) rfl hi, stopsAll_of_ne hsolves rfl rfl hi h]

theorem stops_opened_eq (hsolves : read.Solves grammar tokens) (h : kind? tokens i = some ">") :
    read.stops 9 i = (read.stops 5 (i + 1)).flatMap (read.stopsAll [6, 7, 8]) := by
  rw [stops_sequence hsolves (pattern?_grammar 9) rfl (lt_size_of_kind? h).le,
    stopsAll_token hsolves rfl rfl h]
  rfl

theorem stops_closing (hsolves : read.Solves grammar tokens) (hi : i ≤ tokens.size) :
    read.stops 11 i = if kind? tokens i = some "/>" then [i + 1] else read.stops 9 i := by
  rw [stops_ordered hsolves (pattern?_grammar 11) rfl hi]
  simp only [List.map_cons, List.map_nil, stops_token hsolves 10 rfl rfl hi]
  split
  · simp [ChoiceMode.select]
  · cases h : read.stops 9 i <;> simp [ChoiceMode.select]

/-- An element starts with a sign that no closing starts with. -/
theorem stops_closing_of_ne (hsolves : read.Solves grammar tokens) (hi : i ≤ tokens.size)
    (h : kind? tokens i ≠ some "/>") (h' : kind? tokens i ≠ some ">") :
    read.stops 11 i = [] := by
  rw [stops_closing hsolves hi, if_neg h, stops_opened_of_ne hsolves hi h']

/-! ### Elements -/

theorem stops_element_of_ne (hsolves : read.Solves grammar tokens) (hi : i ≤ tokens.size)
    (h : kind? tokens i ≠ some "<") : read.stops 17 i = [] := by
  rw [stops_sequence hsolves (pattern?_grammar 17) rfl hi, stopsAll_of_ne hsolves rfl rfl hi h]

theorem stops_element_of_unnamed (hsolves : read.Solves grammar tokens) (hi : i ≤ tokens.size)
    (h : kind? tokens (i + 1) ≠ some "name") : read.stops 17 i = [] := by
  by_cases hopen : kind? tokens i = some "<"
  · rw [stops_sequence hsolves (pattern?_grammar 17) rfl hi, stopsAll_token hsolves rfl rfl hopen,
      stopsAll_of_ne hsolves rfl rfl (lt_size_of_kind? hopen) h]
  · exact stops_element_of_ne hsolves hi hopen

/-- Only the longest match of its attributes leads to a match of an element. -/
theorem stops_element (hsolves : read.Solves grammar tokens)
    (hread : read.Forward grammar tokens.size) (hopen : kind? tokens i = some "<")
    (hname : kind? tokens (i + 1) = some "name") :
    read.stops 17 i = read.stops 11 (attributesEnd read (i + 2)) := by
  have hsize := lt_size_of_kind? hname
  obtain ⟨rest, hstops, -, -, hrest⟩ := stops_attributes hsolves hread (i := i + 2) hsize
  have hnone : ∀ j ∈ rest, read.stops 11 j = [] := by
    intro j hj
    obtain ⟨-, -, hj⟩ := hrest j hj
    exact stops_closing_of_ne hsolves (lt_size_of_kind? hj).le (by simp [hj]) (by simp [hj])
  rw [stops_sequence hsolves (pattern?_grammar 17) rfl (lt_size_of_kind? hopen).le,
    stopsAll_token hsolves rfl rfl hopen, stopsAll_token hsolves rfl rfl hname,
    Readings.stopsAll, stops_indented hsolves hsize, hstops]
  simp only [Readings.stopsAll, List.flatMap_singleton', List.flatMap_cons]
  rw [List.flatMap_eq_nil_iff.2 hnone, List.append_nil]

/-! ### Content -/

theorem stops_comment (hsolves : read.Solves grammar tokens) (hi : i ≤ tokens.size) :
    read.stops 21 i = if kind? tokens i = some "comment" then [i + 1] else [] := by
  rw [stops_sequence hsolves (pattern?_grammar 21) rfl hi, stopsAll_mark hsolves rfl rfl hi]
  by_cases hcomment : kind? tokens i = some "comment"
  · rw [stopsAll_token hsolves rfl rfl hcomment,
      stopsAll_mark hsolves rfl rfl (lt_size_of_kind? hcomment), if_pos hcomment]
    rfl
  · rw [stopsAll_of_ne hsolves rfl rfl hi hcomment, if_neg hcomment]

theorem stops_content (hsolves : read.Solves grammar tokens) (hi : i ≤ tokens.size) :
    read.stops 24 i = if kind? tokens i = some "charData" ∨ kind? tokens i = some "comment" then
      [i + 1] else read.stops 17 i := by
  rw [stops_ordered hsolves (pattern?_grammar 24) rfl hi]
  simp only [List.map_cons, List.map_nil, stops_token hsolves 22 rfl rfl hi,
    stops_comment hsolves hi, stops_reference hsolves 23 17 rfl rfl rfl hi]
  by_cases hcharData : kind? tokens i = some "charData"
  · simp [ChoiceMode.select, hcharData]
  · by_cases hcomment : kind? tokens i = some "comment"
    · simp [ChoiceMode.select, hcomment]
    · cases h : read.stops 17 i <;> simp [ChoiceMode.select, hcharData, hcomment]

/-- Content is told apart from what may follow it by its first token. -/
theorem kind?_of_mem_content (hsolves : read.Solves grammar tokens) (hi : i ≤ tokens.size)
    (hj : j ∈ read.stops 4 i) : kind? tokens i = some "charData" ∨
      kind? tokens i = some "comment" ∨ kind? tokens i = some "<" := by
  rw [stops_reference hsolves 4 24 rfl rfl rfl hi, stops_content hsolves hi] at hj
  split at hj
  · rename_i h
    exact h.imp_right .inl
  · by_contra hne
    rw [stops_element_of_ne hsolves hi (by tauto)] at hj
    cases hj

theorem steady_content_of (hsolves : read.Solves grammar tokens)
    (h : ∀ j, i ≤ j → j ≤ tokens.size → (read.stops 17 j).length ≤ 1 ∧
      ∀ k ∈ read.stops 17 j, j < k) : read.Steady 4 none tokens.size i where
  length_le j hij hj := by
    rw [stops_reference hsolves 4 24 rfl rfl rfl hj, stops_content hsolves hj]
    split
    · simp
    · exact (h j hij hj).1
  lt j hij hj k hk := by
    rw [stops_reference hsolves 4 24 rfl rfl rfl hj, stops_content hsolves hj] at hk
    split at hk
    · rw [List.mem_singleton.1 hk]
      exact Nat.lt_succ_self j
    · exact (h j hij hj).2 k hk
  separator s hs := nomatch hs

/-- Content goes on as long as more of it comes. -/
theorem stops_contents_of (hsolves : read.Solves grammar tokens)
    (hread : read.Forward grammar tokens.size) (hi : i ≤ tokens.size)
    (h : read.Steady 4 none tokens.size i) :
    ∃ rest, read.stops 5 i = contentEnd read i :: rest ∧
      read.stops 4 (contentEnd read i) = [] ∧ contentEnd read i ≤ tokens.size ∧
      ∀ j ∈ rest, j ≤ tokens.size ∧ ∃ k ∈ read.stops 4 j, k ≤ contentEnd read i := by
  obtain ⟨m, rest, hstops, hnone, hrest⟩ :=
    stops_longest hsolves hread (pattern?_grammar 5) rfl hi h
  have hsize : ∀ j ∈ read.stops 5 i, j ≤ tokens.size := by
    intro j hj
    obtain ⟨y, hy, rfl⟩ := mem_stops.1 hj
    exact (hread 5 i hi y hy).2.1
  rw [hstops] at hsize
  have hm : contentEnd read i = m := by rw [contentEnd, hstops, List.headD_cons]
  rw [hm]
  exact ⟨rest, hstops, hnone, hsize m List.mem_cons_self, fun j hj =>
    ⟨hsize j (List.mem_cons_of_mem m hj), hrest j hj⟩⟩

/-- Only the longest match of its content leads to a match of an open element. -/
theorem stops_opened_of (hsolves : read.Solves grammar tokens)
    (hread : read.Forward grammar tokens.size) (hclose : kind? tokens i = some ">")
    (h : read.Steady 4 none tokens.size (i + 1)) :
    read.stops 9 i = read.stopsAll [6, 7, 8] (contentEnd read (i + 1)) := by
  obtain ⟨rest, hstops, -, -, hrest⟩ :=
    stops_contents_of hsolves hread (lt_size_of_kind? hclose) h
  have hnone : ∀ j ∈ rest, read.stopsAll [6, 7, 8] j = [] := by
    intro j hj
    obtain ⟨hsize, k, hk, -⟩ := hrest j hj
    refine stopsAll_of_ne hsolves rfl rfl hsize (fun htag => ?_) _
    rcases kind?_of_mem_content hsolves hsize hk with hkind | hkind | hkind <;>
      simp [hkind] at htag
  rw [stops_opened_eq hsolves hclose, hstops, List.flatMap_cons, List.flatMap_eq_nil_iff.2 hnone,
    List.append_nil]

/-! ### All elements -/

/-- An element takes tokens. -/
theorem lt_of_mem_element (hsolves : read.Solves grammar tokens)
    (hread : read.Forward grammar tokens.size) (hi : i ≤ tokens.size)
    (hj : j ∈ read.stops 17 i) : i < j := by
  by_cases hopen : kind? tokens i = some "<"
  · by_cases hname : kind? tokens (i + 1) = some "name"
    · rw [stops_element hsolves hread hopen hname] at hj
      obtain ⟨y, hy, rfl⟩ := mem_stops.1 hj
      obtain ⟨-, -, hle, hsize, -⟩ :=
        stops_attributes hsolves hread (i := i + 2) (lt_size_of_kind? hname)
      have hle' := (hread 11 _ hsize y hy).1
      omega
    · rw [stops_element_of_unnamed hsolves hi hname] at hj
      cases hj
  · rw [stops_element_of_ne hsolves hi hopen] at hj
    cases hj

/-- An element matches in at most one way: what it holds is further on. -/
theorem length_stops_element (hsolves : read.Solves grammar tokens)
    (hread : read.Forward grammar tokens.size) (hi : i ≤ tokens.size) :
    (read.stops 17 i).length ≤ 1 := by
  induction hn : tokens.size - i using Nat.strong_induction_on generalizing i with
  | _ n ih =>
    subst hn
    by_cases hopen : kind? tokens i = some "<"
    · by_cases hname : kind? tokens (i + 1) = some "name"
      · rw [stops_element hsolves hread hopen hname]
        obtain ⟨-, -, hle, hsize, -⟩ :=
          stops_attributes hsolves hread (i := i + 2) (lt_size_of_kind? hname)
        rw [stops_closing hsolves hsize]
        split
        · simp
        by_cases hclose : kind? tokens (attributesEnd read (i + 2)) = some ">"
        · have hsteady : read.Steady 4 none tokens.size (attributesEnd read (i + 2) + 1) :=
            steady_content_of hsolves fun j hij hj =>
              ⟨ih _ (by omega) hj rfl, fun k hk => lt_of_mem_element hsolves hread hj hk⟩
          obtain ⟨-, -, -, hend, -⟩ :=
            stops_contents_of hsolves hread (lt_size_of_kind? hclose) hsteady
          rw [stops_opened_of hsolves hread hclose hsteady, stops_closingTag hsolves hend]
          split <;> simp
        · rw [stops_opened_of_ne hsolves hsize hclose]
          simp
      · rw [stops_element_of_unnamed hsolves hi hname]
        simp
    · rw [stops_element_of_ne hsolves hi hopen]
      simp

theorem steady_content (hsolves : read.Solves grammar tokens)
    (hread : read.Forward grammar tokens.size) (i : Nat) : read.Steady 4 none tokens.size i :=
  steady_content_of hsolves fun _ _ hj => ⟨length_stops_element hsolves hread hj,
    fun _ hk => lt_of_mem_element hsolves hread hj hk⟩

/-- An element is its attributes as far as they go, and a closing; an open element is its content as
far as that goes, and a closing tag. -/
theorem mem_element_iff (hsolves : read.Solves grammar tokens)
    (hread : read.Forward grammar tokens.size) (hi : i ≤ tokens.size) :
    j ∈ read.stops 17 i ↔ kind? tokens i = some "<" ∧ kind? tokens (i + 1) = some "name" ∧
      ∃ m, m = attributesEnd read (i + 2) ∧ (kind? tokens m = some "/>" ∧ j = m + 1 ∨
        kind? tokens m = some ">" ∧ ∃ c, c = contentEnd read (m + 1) ∧
          kind? tokens c = some "</" ∧ kind? tokens (c + 1) = some "name" ∧
            kind? tokens (c + 2) = some ">" ∧ j = c + 3) := by
  constructor
  · intro hj
    have hopen : kind? tokens i = some "<" := by
      by_contra hne
      rw [stops_element_of_ne hsolves hi hne] at hj
      cases hj
    have hname : kind? tokens (i + 1) = some "name" := by
      by_contra hne
      rw [stops_element_of_unnamed hsolves hi hne] at hj
      cases hj
    refine ⟨hopen, hname, _, rfl, ?_⟩
    obtain ⟨-, -, -, hsize, -⟩ :=
      stops_attributes hsolves hread (i := i + 2) (lt_size_of_kind? hname)
    rw [stops_element hsolves hread hopen hname, stops_closing hsolves hsize] at hj
    split at hj
    · rename_i hclosed
      exact .inl ⟨hclosed, List.mem_singleton.1 hj⟩
    · have hclose : kind? tokens (attributesEnd read (i + 2)) = some ">" := by
        by_contra hne
        rw [stops_opened_of_ne hsolves hsize hne] at hj
        cases hj
      have hsteady := steady_content hsolves hread (attributesEnd read (i + 2) + 1)
      obtain ⟨-, -, -, hend, -⟩ :=
        stops_contents_of hsolves hread (lt_size_of_kind? hclose) hsteady
      rw [stops_opened_of hsolves hread hclose hsteady, stops_closingTag hsolves hend] at hj
      split at hj
      · rename_i h
        exact .inr ⟨hclose, _, rfl, h.1, h.2.1, h.2.2, List.mem_singleton.1 hj⟩
      · cases hj
  · rintro ⟨hopen, hname, m, rfl, h⟩
    obtain ⟨-, -, -, hsize, -⟩ :=
      stops_attributes hsolves hread (i := i + 2) (lt_size_of_kind? hname)
    rw [stops_element hsolves hread hopen hname, stops_closing hsolves hsize]
    rcases h with ⟨hclosed, rfl⟩ | ⟨hclose, c, rfl, htag, htagName, htagClose, rfl⟩
    · rw [if_pos hclosed]
      exact List.mem_singleton_self _
    · have hsteady := steady_content hsolves hread (attributesEnd read (i + 2) + 1)
      obtain ⟨-, -, -, hend, -⟩ :=
        stops_contents_of hsolves hread (lt_size_of_kind? hclose) hsteady
      rw [if_neg (by simp [hclose]), stops_opened_of hsolves hread hclose hsteady,
        stops_closingTag hsolves hend, if_pos ⟨htag, htagName, htagClose⟩]
      exact List.mem_singleton_self _

end

end Xml

end ReversibleGrammar
