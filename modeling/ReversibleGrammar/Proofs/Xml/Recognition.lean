/-
XML documents are recognized exactly.

The recognizer goes through a document from left to right: what an element, its attributes
or its content are called for lies between where they start and where they stop, and a part
that does not match is the last one that is tried.  So no part is called twice at one
position, unless it matches and is remembered.

* `Leads` — the calls that a call may lead to;
* `Apart`, `scatters_leads` — no two calls of a pattern lead to the same;
* `exists_parsesTo` — so that recognition is never given up;
* `Part.parse_exact`, `xml_parse_exact` — a document is parsed if it is an element, and then in
  one way.
-/
import ReversibleGrammar.Proofs.Recognizer.Exactness
import ReversibleGrammar.Proofs.Xml.Sentences

namespace ReversibleGrammar

namespace Xml

/-- A call of a pattern that may come to nothing, apart from tokens and references. -/
def Watched (c : Call) : Prop := c.1 ∈ ([9, 11, 17, 21, 24, 30] : List PatternId)

section

variable (tokens : Array LexToken) (read : Readings LexToken) (i : Nat) (d : Call)

/-- The calls that an element at a position leads to: they are made before it stops. -/
def ElementLeads : Prop :=
  d = (17, i) ∨ kind? tokens i = some "<" ∧ i < d.2 ∧ ∀ j ∈ read.stops 17 i, d.2 < j

/-- The calls that a piece of content at a position leads to. -/
def ContentLeads : Prop := d = (24, i) ∨ d = (21, i) ∨ ElementLeads tokens read i d

/-- The calls that content from a position on leads to. -/
def ContentsLead : Prop := ∃ j ∈ read.stops 5 i, ContentLeads tokens read j d

/-- The calls that an open element leads to, from the end of its first tag on. -/
def OpenedLeads : Prop :=
  d = (9, i) ∨ kind? tokens i = some ">" ∧ ContentsLead tokens read (i + 1) d

/-- The calls of patterns that may come to nothing, to which a call may lead. -/
def Leads (c d : Call) : Prop :=
  match c.1 with
  | 0 | 30 => d = (30, c.2)
  | 2 | 14 | 15 | 16 => ∃ j ∈ read.stops 2 c.2, d = (30, j)
  | 5 => ContentsLead tokens read c.2 d
  | 9 => OpenedLeads tokens read c.2 d
  | 11 => d = (11, c.2) ∨ OpenedLeads tokens read c.2 d
  | 17 | 23 => ElementLeads tokens read c.2 d
  | 21 => d = (21, c.2)
  | 4 | 24 => ContentLeads tokens read c.2 d
  | _ => False

end

section

variable {tokens : Array LexToken} {read : Readings LexToken} {i j : Nat} {c d : Call}

/-- The patterns whose calls lead to others. -/
def leading : List PatternId := [0, 2, 4, 5, 9, 11, 14, 15, 16, 17, 21, 23, 24, 30]

theorem not_leads (hc : c.1 ∉ leading) : ¬ Leads tokens read c d := by
  unfold Leads
  split <;> simp_all [leading]

/-! ### Where calls are made -/

theorem ElementLeads.le (h : ElementLeads tokens read i d) : i ≤ d.2 := by
  rcases h with rfl | ⟨-, hlt, -⟩
  · exact le_rfl
  · exact hlt.le

theorem ContentLeads.le (h : ContentLeads tokens read i d) : i ≤ d.2 := by
  rcases h with rfl | rfl | h
  · exact le_rfl
  · exact le_rfl
  · exact h.le

/-- Content leads to nothing beyond where it stops. -/
theorem ContentLeads.lt (hsolves : read.Solves grammar tokens)
    (hread : read.Forward grammar tokens.size) (hi : i ≤ tokens.size)
    (h : ContentLeads tokens read i d) (hj : j ∈ read.stops 4 i) : d.2 < j := by
  have hlt := (steady_content hsolves hread i).lt i le_rfl hi j hj
  rcases h with rfl | rfl | rfl | ⟨hopen, -, hend⟩
  · exact hlt
  · exact hlt
  · exact hlt
  · rw [stops_reference hsolves 4 24 rfl rfl rfl hi, stops_content hsolves hi,
      if_neg (by simp [hopen])] at hj
    exact hend j hj

theorem ContentsLead.le (hread : read.Forward grammar tokens.size) (hi : i ≤ tokens.size)
    (h : ContentsLead tokens read i d) : i ≤ d.2 := by
  obtain ⟨j, hj, h⟩ := h
  exact (range_of_mem_stops hread hi hj).1.trans h.le

/-- Content leads to nothing beyond the closing tag that comes after it. -/
theorem ContentsLead.le_contentEnd (hsolves : read.Solves grammar tokens)
    (hread : read.Forward grammar tokens.size) (hi : i ≤ tokens.size)
    (h : ContentsLead tokens read i d) (htag : kind? tokens (contentEnd read i) = some "</") :
    d.2 ≤ contentEnd read i := by
  obtain ⟨rest, hstops, -, -, hrest⟩ :=
    stops_contents_of hsolves hread hi (steady_content hsolves hread i)
  obtain ⟨j, hj, h⟩ := h
  rw [hstops] at hj
  rcases List.mem_cons.1 hj with rfl | hj
  · rcases h with rfl | rfl | rfl | ⟨hopen, -, -⟩
    · exact le_rfl
    · exact le_rfl
    · exact le_rfl
    · simp [hopen] at htag
  · obtain ⟨hsize, k, hk, hle⟩ := hrest j hj
    exact (h.lt hsolves hread hsize hk).le.trans hle

theorem OpenedLeads.le (hread : read.Forward grammar tokens.size)
    (h : OpenedLeads tokens read i d) : i ≤ d.2 := by
  rcases h with rfl | ⟨hclose, h⟩
  · exact le_rfl
  · exact (Nat.le_succ i).trans (h.le hread (lt_size_of_kind? hclose))

theorem OpenedLeads.ne_closing (hread : read.Forward grammar tokens.size)
    (h : OpenedLeads tokens read i d) : d ≠ (11, i) := by
  rcases h with rfl | ⟨hclose, h⟩
  · simp
  · rintro rfl
    exact absurd (h.le hread (lt_size_of_kind? hclose)) (Nat.not_succ_le_self i)

/-- The closing of an element leads to nothing but itself if its token is a name. -/
theorem eq_of_closing_leads (h : Leads tokens read (11, i) d)
    (hname : kind? tokens i = some "name") : d.2 = i := by
  rcases h with rfl | rfl | ⟨hclose, -⟩
  · rfl
  · rfl
  · simp [hclose] at hname

theorem le_of_closing_leads (hread : read.Forward grammar tokens.size)
    (h : Leads tokens read (11, i) d) : i ≤ d.2 := by
  rcases h with rfl | h
  · exact le_rfl
  · exact h.le hread

/-! ### The calls of an element -/

theorem callsFrom_element (hsolves : read.Solves grammar tokens)
    (hopen : kind? tokens i = some "<") (hname : kind? tokens (i + 1) = some "name") :
    read.callsFrom [12, 13, 16, 11] [i] =
      (12, i) :: (13, i + 1) :: (16, i + 2) :: (read.stops 2 (i + 2)).map fun j => (11, j) := by
  have hsize := lt_size_of_kind? hname
  have h12 : read.stops 12 i = [i + 1] := by
    rw [stops_token hsolves 12 rfl rfl (lt_size_of_kind? hopen).le, if_pos hopen]
  have h13 : read.stops 13 (i + 1) = [i + 2] := by
    rw [stops_token hsolves 13 rfl rfl hsize.le, if_pos hname]
  have h16 := stops_indented hsolves (i := i + 2) hsize
  simp [Readings.callsFrom, h12, h13, h16]

/-- Without its first two tokens, an element calls nothing else. -/
theorem not_leads_of_unnamed (hsolves : read.Solves grammar tokens) (hi : i ≤ tokens.size)
    (h : ¬ (kind? tokens i = some "<" ∧ kind? tokens (i + 1) = some "name")) :
    ∀ c ∈ read.callsFrom [12, 13, 16, 11] [i], c.1 ∉ leading := by
  have h12 := stops_token hsolves 12 rfl rfl hi
  by_cases hopen : kind? tokens i = some "<"
  · have hname : kind? tokens (i + 1) ≠ some "name" := fun hname => h ⟨hopen, hname⟩
    have h13 := stops_token hsolves 13 rfl rfl (i := i + 1) (lt_size_of_kind? hopen)
    rw [if_pos hopen] at h12
    rw [if_neg hname] at h13
    simp [Readings.callsFrom, h12, h13, leading]
  · rw [if_neg hopen] at h12
    simp [Readings.callsFrom, h12, leading]

/-- What an element calls leads to calls before the element stops. -/
theorem elementLeads_of_call (hsolves : read.Solves grammar tokens)
    (hread : read.Forward grammar tokens.size) (hi : i ≤ tokens.size)
    (hc : c ∈ read.callsFrom [12, 13, 16, 11] [i]) (h : Leads tokens read c d) :
    kind? tokens i = some "<" ∧ i < d.2 ∧ ∀ j ∈ read.stops 17 i, d.2 < j := by
  by_cases hstart : kind? tokens i = some "<" ∧ kind? tokens (i + 1) = some "name"
  swap
  · exact absurd h (not_leads (not_leads_of_unnamed hsolves hi hstart c hc))
  obtain ⟨hopen, hname⟩ := hstart
  obtain ⟨rest, hstops, hle, -, hrest⟩ :=
    stops_attributes hsolves hread (i := i + 2) (lt_size_of_kind? hname)
  have hattribute : ∀ j ∈ read.stops 2 (i + 2), i + 2 ≤ j ∧ j ≤ attributesEnd read (i + 2) := by
    intro j hj
    rw [hstops] at hj
    rcases List.mem_cons.1 hj with rfl | hj
    · exact ⟨hle, le_rfl⟩
    · exact ⟨(hrest j hj).1, (hrest j hj).2.1.le⟩
  have hend : ∀ k ∈ read.stops 17 i, attributesEnd read (i + 2) < k := by
    intro k hk
    obtain ⟨-, -, m, rfl, ⟨-, rfl⟩ | ⟨hclose, c, rfl, -, -, -, rfl⟩⟩ :=
      (mem_element_iff hsolves hread hi).1 hk
    · exact Nat.lt_succ_self _
    · obtain ⟨rest, hstops, -⟩ := stops_contents_of hsolves hread (lt_size_of_kind? hclose)
        (steady_content hsolves hread _)
      have hmem : contentEnd read (attributesEnd read (i + 2) + 1) ∈
          read.stops 5 (attributesEnd read (i + 2) + 1) := by
        rw [hstops]
        exact List.mem_cons_self
      have := (range_of_mem_stops hread (lt_size_of_kind? hclose) hmem).1
      omega
  rw [callsFrom_element hsolves hopen hname] at hc
  simp only [List.mem_cons, List.mem_map] at hc
  rcases hc with rfl | rfl | rfl | ⟨j, hj, rfl⟩
  · exact absurd h (not_leads (by simp [leading]))
  · exact absurd h (not_leads (by simp [leading]))
  · -- the attributes
    obtain ⟨j, hj, rfl⟩ := h
    obtain ⟨hle, hle'⟩ := hattribute j hj
    exact ⟨hopen, by dsimp only; omega, fun k hk => hle'.trans_lt (hend k hk)⟩
  · -- the closing, after some of the attributes
    obtain ⟨hle, hle'⟩ := hattribute j hj
    refine ⟨hopen, (show i < j by omega).trans_le (le_of_closing_leads hread h), fun k hk => ?_⟩
    rcases h with rfl | rfl | ⟨hclose, h⟩
    · exact hle'.trans_lt (hend k hk)
    · exact hle'.trans_lt (hend k hk)
    · have hj' := attributesEnd_eq hsolves hread (lt_size_of_kind? hname) hj (by simp [hclose])
      obtain ⟨-, -, m, rfl, ⟨hclosed, -⟩ | ⟨-, c, rfl, htag, -, -, rfl⟩⟩ :=
        (mem_element_iff hsolves hread hi).1 hk
      · simp [hj', hclose] at hclosed
      · rw [hj'] at htag ⊢
        have hle : d.2 ≤ contentEnd read (j + 1) :=
          h.le_contentEnd hsolves hread (lt_size_of_kind? hclose) htag
        omega

/-- The calls of an element lead apart: only the closing after the last attribute leads beyond that
attribute. -/
theorem pairwise_callsFrom_element (hsolves : read.Solves grammar tokens)
    (hread : read.Forward grammar tokens.size) (hi : i ≤ tokens.size) :
    (read.callsFrom [12, 13, 16, 11] [i]).Pairwise fun c c' =>
      ∀ d, Watched d → Leads tokens read c d → ¬ Leads tokens read c' d := by
  by_cases hstart : kind? tokens i = some "<" ∧ kind? tokens (i + 1) = some "name"
  swap
  · exact List.pairwise_of_forall_mem_list fun c hc _ _ d _ h =>
      absurd h (not_leads (not_leads_of_unnamed hsolves hi hstart c hc))
  obtain ⟨hopen, hname⟩ := hstart
  have hsize : i + 2 ≤ tokens.size := lt_size_of_kind? hname
  rw [callsFrom_element hsolves hopen hname]
  have h12 : ((12, i) : Call).1 ∉ leading := by simp [leading]
  have h13 : ((13, i + 1) : Call).1 ∉ leading := by simp [leading]
  refine .cons (fun c _ d _ h => absurd h (not_leads h12))
    (.cons (fun c _ d _ h => absurd h (not_leads h13)) (.cons (fun c hc d _ h h' => ?_) ?_))
  · obtain ⟨j, hj, rfl⟩ := List.mem_map.1 hc
    obtain ⟨k, hk, rfl⟩ := h
    rcases h' with h' | h' | ⟨hclose, h'⟩
    · simp at h'
    · simp at h'
    · -- an attribute is not called beyond the last one
      have hlt : j + 1 ≤ k := h'.le hread (lt_size_of_kind? hclose)
      obtain ⟨rest, hstops, -, -, hrest⟩ := stops_attributes hsolves hread (i := i + 2) hsize
      have hj' := attributesEnd_eq hsolves hread hsize hj (by simp [hclose])
      rw [hstops] at hk
      rcases List.mem_cons.1 hk with rfl | hk
      · omega
      · have := (hrest k hk).2.1
        omega
  · refine List.pairwise_map.2 ((stops_pairwise hsolves hread (pattern?_grammar 2) rfl hsize
      (steady_attributes hsolves _)).imp_of_mem fun {j k} hj hk hnext d _ h h' => ?_)
    obtain ⟨l, hl, hle⟩ := hnext
    obtain ⟨hname, -, -, rfl⟩ := kind?_of_mem_attribute hsolves
      (range_of_mem_stops hread hsize hk).2 hl
    have h' := eq_of_closing_leads h' hname
    have h := le_of_closing_leads hread h
    omega

/-! ### The calls of all patterns -/

/-- What the calls lead to, the call that makes them leads to as well, and no two of them lead to
the same. -/
structure Apart (tokens : Array LexToken) (read : Readings LexToken) (c : Call)
    (calls : List Call) : Prop where
  step : ∀ b ∈ calls, ∀ d, Watched d → Leads tokens read b d → Leads tokens read c d ∧ d ≠ c
  apart : calls.Pairwise fun b b' =>
    ∀ d, Watched d → Leads tokens read b d → ¬ Leads tokens read b' d

theorem Apart.sublist {calls calls' : List Call} (h : Apart tokens read c calls')
    (hcalls : calls.Sublist calls') : Apart tokens read c calls :=
  ⟨fun b hb => h.step b (hcalls.subset hb), h.apart.sublist hcalls⟩

theorem apart_of_not_leading {calls : List Call} (h : ∀ b ∈ calls, b.1 ∉ leading) :
    Apart tokens read c calls :=
  ⟨fun b hb _ _ hleads => absurd hleads (not_leads (h b hb)),
    List.pairwise_of_forall_mem_list fun b hb _ _ _ _ hleads =>
      absurd hleads (not_leads (h b hb))⟩

theorem apart_of_children {children : List PatternId} (h : ∀ id ∈ children, id ∉ leading)
    (js : List Nat) : Apart tokens read c (read.callsFrom children js) :=
  apart_of_not_leading fun b hb => h b.1 (mem_callsFrom hb)

/-- A call that is made before the others and leads to nothing makes no difference. -/
theorem Apart.cons {b : Call} {calls : List Call} (hb : b.1 ∉ leading)
    (h : Apart tokens read c calls) : Apart tokens read c (b :: calls) :=
  ⟨List.forall_mem_cons.2 ⟨fun _ _ hleads => absurd hleads (not_leads hb), h.step⟩,
    .cons (fun _ _ _ _ hleads => absurd hleads (not_leads hb)) h.apart⟩

/-- Only the first call leads to others. -/
theorem apart_first {b : Call} {calls : List Call}
    (hb : ∀ d, Watched d → Leads tokens read b d → Leads tokens read c d ∧ d ≠ c)
    (h : ∀ b ∈ calls, b.1 ∉ leading) : Apart tokens read c (b :: calls) :=
  ⟨List.forall_mem_cons.2 ⟨hb, (apart_of_not_leading h).step⟩,
    .cons (fun b' hb' _ _ _ hleads => absurd hleads (not_leads (h b' hb')))
      (apart_of_not_leading (c := c) h).apart⟩

/-- What is called leads to what the pattern around it leads to. -/
theorem apart_wrapped {b : Call} (hleads : ∀ d, Leads tokens read b d → Leads tokens read c d)
    (hc : ¬ Watched c) : Apart tokens read c [b] :=
  apart_first (fun d hd h => ⟨hleads d h, fun heq => hc (heq ▸ hd)⟩) (List.forall_mem_nil _)

theorem apart_attributes (hsolves : read.Solves grammar tokens)
    (hread : read.Forward grammar tokens.size) (hi : i ≤ tokens.size) :
    Apart tokens read (2, i) ((read.chains 0 (some 1) tokens.size i).map fun c =>
      (c.nextPart 0 (some 1), c.stop)) := by
  have hsteady : read.Steady 0 (some 1) tokens.size i := steady_attributes hsolves i
  -- a separator leads to nothing
  have hattribute {c : Chain LexToken} {d : Call}
      (h : Leads tokens read (c.nextPart 0 (some 1), c.stop) d) :
      c.nextSeparator? (some 1) = none ∧ d = (30, c.stop) := by
    cases hnext : c.nextSeparator? (some 1) with
    | none => exact ⟨rfl, by simpa [Chain.nextPart, hnext, Leads] using h⟩
    | some s =>
      obtain rfl := Option.some.inj (Chain.nextSeparator?_eq_some hnext).2
      simp [Chain.nextPart, hnext, Leads] at h
  constructor
  · intro b hb d _ h
    obtain ⟨c, hc, rfl⟩ := List.mem_map.1 hb
    obtain ⟨-, rfl⟩ := hattribute h
    exact ⟨⟨c.stop, mem_stops_of_chain hsolves hread (pattern?_grammar 2) rfl hi hsteady c hc, rfl⟩,
      by simp⟩
  · refine List.pairwise_map.2 ((chains_pairwise hread hi hsteady).imp
      fun {c c'} hbefore d _ h h' => ?_)
    obtain ⟨hnext, rfl⟩ := hattribute h
    have hstop : c.stop = c'.stop := congrArg Prod.snd (hattribute h').2
    exact (hbefore.next hnext).ne hstop

theorem apart_contents (hsolves : read.Solves grammar tokens)
    (hread : read.Forward grammar tokens.size) (hi : i ≤ tokens.size) :
    Apart tokens read (5, i) ((read.chains 4 none tokens.size i).map fun c =>
      (c.nextPart 4 none, c.stop)) := by
  have hsteady := steady_content hsolves hread i
  have hnext (c : Chain LexToken) : c.nextSeparator? none = none := by
    simp [Chain.nextSeparator?]
  have hpart (c : Chain LexToken) : c.nextPart 4 none = 4 := by
    rw [Chain.nextPart, hnext, Option.getD_none]
  simp only [hpart]
  constructor
  · intro b hb d hd h
    obtain ⟨c, hc, rfl⟩ := List.mem_map.1 hb
    refine ⟨⟨c.stop, ?_, h⟩, fun heq => ?_⟩
    · exact mem_stops_of_chain hsolves hread (pattern?_grammar 5) rfl hi hsteady c hc
    · rw [heq] at hd
      simp [Watched] at hd
  · refine List.pairwise_map.2 ((chains_pairwise hread hi hsteady).imp_of_mem
      fun {c c'} hc _ hbefore d _ h h' => ?_)
    -- the content that comes first lies before all that comes next
    obtain ⟨k, hk, hle⟩ := hbefore.item (hbefore.next (hnext c))
    have hsize := (chains_onLine hread hi hsteady c hc).forward.stop_le
    have hlt : d.2 < k := ContentLeads.lt hsolves hread hsize h hk
    have hle' : c'.stop ≤ d.2 := ContentLeads.le h'
    omega

theorem apart_opened (hsolves : read.Solves grammar tokens)
    (hread : read.Forward grammar tokens.size) (hi : i ≤ tokens.size) :
    Apart tokens read (9, i) (read.callsFrom [3, 5, 6, 7, 8] [i]) := by
  have hstops := stops_token hsolves 3 rfl rfl hi
  refine .cons (by simp [leading]) ?_
  by_cases hclose : kind? tokens i = some ">"
  · rw [if_pos hclose] at hstops
    simp only [Readings.callsFrom, hstops, List.flatMap_singleton, List.map_singleton,
      List.singleton_append]
    refine apart_first (fun d _ h => ⟨.inr ⟨hclose, h⟩, ?_⟩) fun b hb => ?_
    · rintro rfl
      exact Nat.not_succ_le_self i (ContentsLead.le hread (lt_size_of_kind? hclose) h)
    · have hchildren : ∀ id ∈ ([6, 7, 8] : List PatternId), id ∉ leading := by decide
      exact hchildren b.1 (mem_callsFrom (show b ∈ read.callsFrom [6, 7, 8] _ from hb))
  · rw [if_neg hclose] at hstops
    simp only [Readings.callsFrom, hstops, List.flatMap_singleton, List.map_nil, List.flatMap_nil,
      List.append_nil]
    exact apart_of_not_leading (List.forall_mem_nil _)

theorem apart_closing (hread : read.Forward grammar tokens.size) :
    Apart tokens read (11, i) [(10, i), (9, i)] :=
  .cons (by simp [leading]) (apart_first (fun _ _ h => ⟨.inr h, OpenedLeads.ne_closing hread h⟩)
    (List.forall_mem_nil _))

theorem apart_element (hsolves : read.Solves grammar tokens)
    (hread : read.Forward grammar tokens.size) (hi : i ≤ tokens.size) :
    Apart tokens read (17, i) (read.callsFrom [12, 13, 16, 11] [i]) := by
  refine ⟨fun b hb d _ h => ?_, pairwise_callsFrom_element hsolves hread hi⟩
  obtain ⟨hopen, hlt, hend⟩ := elementLeads_of_call hsolves hread hi hb h
  exact ⟨.inr ⟨hopen, hlt, hend⟩, fun heq => by simp [heq] at hlt⟩

theorem apart_content : Apart tokens read (24, i) [(22, i), (21, i), (23, i)] := by
  have hne {d : Call} (h : ElementLeads tokens read i d) : d ≠ (24, i) ∧ d ≠ (21, i) := by
    rcases h with rfl | ⟨-, hlt, -⟩
    · simp
    · exact ⟨fun heq => by simp [heq] at hlt, fun heq => by simp [heq] at hlt⟩
  refine .cons (by simp [leading]) ⟨?_, List.pairwise_pair.2 fun d _ h h' => (hne h').2 h⟩
  refine List.forall_mem_cons.2 ⟨fun d _ h => ⟨.inr (.inl h), ?_⟩,
    List.forall_mem_singleton.2 fun d _ h => ⟨.inr (.inr h), (hne h).1⟩⟩
  rw [show d = (21, i) from h]
  simp

/-- Patterns that do not lead to others make no calls. -/
theorem calls_of_not_leading {id : PatternId} {p : Pattern} (hp : grammar.pattern? id = some p)
    (hid : id ∉ leading) (size : Nat) : p.calls grammar size read i = [] := by
  rw [pattern?_grammar] at hp
  have hlt : id < 31 := (Array.getElem?_eq_some_iff.1 hp).1
  interval_cases id <;> first | (cases hp; rfl) | simp [leading] at hid

theorem apart_calls (hsolves : read.Solves grammar tokens)
    (hread : read.Forward grammar tokens.size) {id : PatternId} {p : Pattern}
    (hp : grammar.pattern? id = some p) (hi : i ≤ tokens.size) :
    Apart tokens read (id, i) (p.calls grammar tokens.size read i) := by
  by_cases hid : id ∈ leading
  swap
  · rw [calls_of_not_leading hp hid]
    exact apart_of_not_leading (List.forall_mem_nil _)
  rw [pattern?_grammar] at hp
  have hwrapped {wrapper : Wrapper} (child : PatternId)
      (hkind : p.kind.wrapped? grammar = some (wrapper, child))
      (hleads : ∀ d, Leads tokens read (child, i) d → Leads tokens read (id, i) d)
      (hwatched : id ∉ ([9, 11, 17, 21, 24, 30] : List PatternId)) :
      Apart tokens read (id, i) (p.calls grammar tokens.size read i) := by
    rw [Pattern.calls_wrapped hkind]
    exact apart_wrapped hleads hwatched
  have hrule {rule : RuleId} {body : PatternId} (hkind : p.kind = .thunk rule)
      (hbody : ([30, 24, 17] : List PatternId)[rule]? = some body) :
      p.kind.wrapped? grammar = some (.thunk, body) := by
    rw [hkind, PatternKind.wrapped?, ruleBody?_grammar, hbody]
    rfl
  simp only [leading, List.mem_cons, List.not_mem_nil, or_false] at hid
  rcases hid with rfl | rfl | rfl | rfl | rfl | rfl | rfl | rfl | rfl | rfl | rfl | rfl | rfl | rfl
    <;> obtain rfl := Option.some.inj hp
  · exact hwrapped _ (hrule rfl rfl) (fun _ h => h) (by decide)
  · exact apart_attributes hsolves hread hi
  · exact hwrapped _ (hrule rfl rfl) (fun _ h => h) (by decide)
  · exact apart_contents hsolves hread hi
  · rw [calls_sequence rfl]
    exact apart_opened hsolves hread hi
  · exact (apart_closing hread).sublist ((Readings.tried_sublist _ _ _).map _)
  · exact hwrapped 2 rfl (fun _ h => h) (by decide)
  · exact hwrapped 14 rfl (fun _ h => h) (by decide)
  · exact hwrapped 15 rfl (fun _ h => h) (by decide)
  · rw [calls_sequence rfl]
    exact apart_element hsolves hread hi
  · rw [calls_sequence rfl]
    exact apart_of_children (by decide) _
  · exact hwrapped _ (hrule rfl rfl) (fun _ h => h) (by decide)
  · exact apart_content.sublist ((Readings.tried_sublist _ _ _).map _)
  · rw [calls_sequence rfl]
    exact apart_of_children (by decide) _

/-- No call of a part that may come to nothing is made twice. -/
theorem scatters_leads (hsolves : read.Solves grammar tokens)
    (hread : read.Forward grammar tokens.size) :
    read.Scatters grammar tokens.size Watched (Leads tokens read) where
  refl := by
    rintro ⟨id, i⟩ hc
    simp only [Watched, List.mem_cons, List.not_mem_nil, or_false] at hc
    rcases hc with rfl | rfl | rfl | rfl | rfl | rfl
    · exact .inl rfl
    · exact .inl rfl
    · exact .inl rfl
    · rfl
    · exact .inl rfl
    · rfl
  step hp hi hc hd h := (apart_calls hsolves hread hp hi).step _ hc _ hd h
  apart hp hi := (apart_calls hsolves hread hp hi).apart

/-- All other parts match wherever they are called, if only without taking a token. -/
theorem not_unwatched (hsolves : read.Solves grammar tokens) (site : Site) :
    ¬ read.Unwatched grammar tokens.size Watched site := by
  rintro ⟨hi, id, p, hp, -, hbounded, hnone, hwatched⟩
  change id ∉ ([9, 11, 17, 21, 24, 30] : List PatternId) at hwatched
  rw [← stops_eq_nil] at hnone
  rw [pattern?_grammar] at hp
  have hlt : id < 31 := (Array.getElem?_eq_some_iff.1 hp).1
  have hid : id ∈ ([1, 18, 20, 27, 29, 2, 14, 15, 16, 5] : List PatternId) := by
    by_contra hid
    interval_cases id <;>
      first | exact hid (by decide) | exact hwatched (by decide) | (cases hp; cases hbounded)
  have hmark {marker : Marker} (hkind : p.kind.mark? = some marker) : False := by
    rw [stops_mark hsolves ((pattern?_grammar id).trans hp) hkind hi] at hnone
    cases hnone
  have hgroup : read.stops 14 site.index = read.stops 2 site.index :=
    stops_wrapped hsolves (pattern?_grammar 14) rfl hi
  have hconditional : read.stops 15 site.index = read.stops 14 site.index :=
    stops_wrapped hsolves (pattern?_grammar 15) rfl hi
  have hattributes := mem_stops_start hsolves (pattern?_grammar 2) rfl hi
  have hcontents := mem_stops_start hsolves (pattern?_grammar 5) rfl hi
  simp only [List.mem_cons, List.not_mem_nil, or_false] at hid
  rcases hid with rfl | rfl | rfl | rfl | rfl | rfl | rfl | rfl | rfl | rfl
    <;> obtain rfl := Option.some.inj hp
  · exact hmark rfl
  · exact hmark rfl
  · exact hmark rfl
  · exact hmark rfl
  · exact hmark rfl
  · simp [hnone] at hattributes
  · simp [hgroup ▸ hnone] at hattributes
  · simp [hgroup ▸ hconditional ▸ hnone] at hattributes
  · simp [stops_indented hsolves hi ▸ hnone] at hattributes
  · simp [hnone] at hcontents

end

/-! ### Documents -/

section

variable {tokens : Array LexToken} {read : Readings LexToken}

/-- Elements, and pieces of content, match the whole input in one way, if at all. -/
theorem length_wholeTrees_le (hsolves : read.Solves grammar tokens)
    (hread : read.Forward grammar tokens.size) (part : Part) :
    (wholeTrees tokens.size (read part.pattern 0)).length ≤ 1 := by
  have hlength : (read.stops part.pattern 0).length ≤ 1 := by
    cases part with
    | element => exact length_stops_element hsolves hread (Nat.zero_le _)
    | content =>
      have h := (steady_content hsolves hread 0).length_le 0 le_rfl (Nat.zero_le _)
      rwa [stops_reference hsolves 4 24 rfl rfl rfl (Nat.zero_le _)] at h
  rw [length_stops] at hlength
  rw [wholeTrees, List.length_map]
  exact (List.length_filter_le _ _).trans hlength

/-- The whole input matches exactly if it is a sentence. -/
theorem wholeTrees_ne_nil_iff (hsolves : read.Solves grammar tokens)
    (hread : read.Forward grammar tokens.size) (part : Part) :
    wholeTrees tokens.size (read part.pattern 0) ≠ [] ↔
      Sentence part (kinds tokens 0 tokens.size) := by
  have hmem : wholeTrees tokens.size (read part.pattern 0) ≠ [] ↔
      tokens.size ∈ read.stops part.pattern 0 := by
    rw [ne_eq, List.eq_nil_iff_forall_not_mem]
    simp [mem_wholeTrees, mem_stops]
  rw [hmem]
  constructor
  · intro h
    have helement : ∀ j ∈ read.stops 17 0, Sentence .element (kinds tokens 0 j) := fun j hj =>
      sentence_of_mem_element hsolves hread (Nat.zero_le _) hj
    cases part with
    | element => exact helement _ h
    | content => exact sentence_of_mem_content_of hsolves (Nat.zero_le _) helement h
  · exact fun h => mem_stops_of_sentence hsolves hread h (Nat.zero_le _) le_rfl rfl

/-- With enough fuel, documents are recognized exactly. -/
theorem exists_parsesTo (hsolves : read.Solves grammar tokens)
    (hread : read.Forward grammar tokens.size) (hdistinct : read.Distinct) {id : PatternId}
    (hid : id < grammar.patterns.size) :
    ∃ fuel, ∀ config : ParserConfig, fuel ≤ config.fuel →
      ParsesTo grammar config id tokens (read id 0) := by
  obtain ⟨rank, hrank⟩ := ranked_grammar
  exact (scatters_leads hsolves hread).exists_parsesTo (not_unwatched hsolves) hsolves hread
    hdistinct built_grammar.closed distinctLabels_grammar hrank hid

end

/-- The rule of a part. -/
def Part.rule : Part → String
  | element => "element"
  | content => "elementContent"

theorem rule?_grammar (part : Part) : grammar.rule? part.rule = some part.pattern := by
  rw [grammar_eq]
  cases part <;> rfl

/-- With enough fuel, a sentence is parsed as its one tree, and nothing else is matched. -/
theorem Part.parse_exact (part : Part) (tokens : List LexToken) :
    ∃ fuel, ∀ config : ParserConfig, fuel ≤ config.fuel →
      (Sentence part (tokens.map LexToken.kind) →
        ∃ t, { Language.xml with parserConfig := config }.parseTokens part.rule tokens = .ok t ∧
          parseAll grammar config part.pattern tokens.toArray = .ok [t]) ∧
      (¬ Sentence part (tokens.map LexToken.kind) →
        (∃ failures, { Language.xml with parserConfig := config }.parseTokens part.rule tokens =
          .error (.parse (.noMatch failures))) ∧
        ∃ failures, parseAll (ν := LexToken) grammar config part.pattern tokens.toArray =
          .error (.noMatch failures)) := by
  obtain ⟨rank, hrank⟩ := ranked_grammar
  obtain ⟨weight, hweight⟩ := hrank.exists_weighted tokens.toArray.size
  obtain ⟨read, hsolves, hread, hdistinct⟩ := hweight.exists_solution (ν := LexToken)
  have hid : part.pattern < grammar.patterns.size := by
    rw [grammar_eq]
    cases part <;> decide
  obtain ⟨fuel, hfuel⟩ := exists_parsesTo hsolves hread hdistinct hid
  have hsentence := wholeTrees_ne_nil_iff hsolves hread part
  rw [List.size_toArray, kinds_size] at hsentence
  have hlength := length_wholeTrees_le hsolves hread part
  have hparse (config : ParserConfig) :
      { Language.xml with parserConfig := config }.parseTokens part.rule tokens =
        (parseOne grammar config part.pattern tokens.toArray).mapError .parse := by
    simp only [Language.parseTokens, Language.rule, Language.xml, rule?_grammar]
    rfl
  refine ⟨fuel, fun config hle => ⟨fun h => ?_, fun h => ?_⟩⟩
  · obtain ⟨t, htrees⟩ : ∃ t, wholeTrees tokens.toArray.size (read part.pattern 0) = [t] :=
      List.length_eq_one_iff.1 (le_antisymm hlength (List.length_pos_iff.2 (hsentence.2 h)))
    obtain ⟨hall, hone⟩ := (hfuel config hle).trees t [] htrees
    exact ⟨t, by rw [hparse, hone]; rfl, hall⟩
  · obtain ⟨hall, failures, hone⟩ :=
      (hfuel config hle).noMatch (not_not.1 fun hne => h (hsentence.1 hne))
    exact ⟨⟨failures, by rw [hparse, hone]; rfl⟩, hall⟩

end Xml

/-- With enough fuel, tokens are parsed as an element exactly if their kinds are those of an
element.  They are then parsed in one way, and all others are not matched. -/
theorem xml_parse_exact (tokens : List LexToken) :
    ∃ body, Xml.grammar.rule? "element" = some body ∧
      ∃ fuel, ∀ config : ParserConfig, fuel ≤ config.fuel →
        let xml : Language := { Language.xml with parserConfig := config }
        ((∃ t, xml.parseTokens "element" tokens = .ok t) ↔
          Xml.Sentence .element (tokens.map LexToken.kind)) ∧
        (∀ t, xml.parseTokens "element" tokens = .ok t →
          parseAll Xml.grammar config body tokens.toArray = .ok [t]) ∧
        (¬ Xml.Sentence .element (tokens.map LexToken.kind) →
          (∃ failures, xml.parseTokens "element" tokens = .error (.parse (.noMatch failures))) ∧
          ∃ failures, parseAll (ν := LexToken) Xml.grammar config body tokens.toArray =
            .error (.noMatch failures)) := by
  obtain ⟨fuel, hfuel⟩ := Xml.Part.element.parse_exact tokens
  refine ⟨17, Xml.rule?_grammar .element, fuel, fun config hle => ?_⟩
  obtain ⟨hyes, hno⟩ := hfuel config hle
  have hsentence {t : Tree LexToken} (ht : { Language.xml with parserConfig := config }.parseTokens
      "element" tokens = .ok t) : Xml.Sentence .element (tokens.map LexToken.kind) := by
    by_contra hne
    obtain ⟨failures, hfail⟩ := (hno hne).1
    exact nomatch ht.symm.trans hfail
  refine ⟨⟨fun ⟨t, ht⟩ => hsentence ht, fun h => ?_⟩, fun t ht => ?_, hno⟩
  · obtain ⟨t, ht, -⟩ := hyes h
    exact ⟨t, ht⟩
  · obtain ⟨t', ht', hall⟩ := hyes (hsentence ht)
    obtain rfl : t = t' := Except.ok.inj (ht.symm.trans ht')
    exact hall

end ReversibleGrammar
