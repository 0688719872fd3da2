/-
What tokens cover.

A run of a lexer takes its source from the start to the end, so that the tokens stand one after the
other, each between two characters, and cover all of the source if no rule is discarded.  It stops
at an error or at the end of the source: it always has a current state, since every action leads to a
state of the lexer and the last state is not popped.

* `Lexer.Closed`, `closed_of_make` — actions lead to states of the lexer;
* `Span.InOrder`, `Span.Tile` — spans one after the other, with and without gaps;
* `Lexer.Covering`, `Covering.step` — what a run keeps;
* `tokenize_covers` — the tokens and the errors of a run.
-/
import ReversibleGrammar.Proofs.Lexing.Stack

namespace ReversibleGrammar

/-! ### Spans -/

namespace Span

/-- The spans stand one after the other, from one byte to another. -/
def InOrder : Nat → List Span → Nat → Prop
  | first, [], last => first ≤ last
  | first, s :: spans, last => first ≤ s.start ∧ s.start ≤ s.stop ∧ InOrder s.stop spans last

/-- The spans cover all from one byte to another, without gaps. -/
def Tile : Nat → List Span → Nat → Prop
  | first, [], last => first = last
  | first, s :: spans, last => s.start = first ∧ Tile s.stop spans last

variable {first middle last : Nat} {spans spans' : List Span}

theorem InOrder.mono (h : InOrder first spans middle) (hle : middle ≤ last) :
    InOrder first spans last := by
  induction spans generalizing first with
  | nil => exact Nat.le_trans h hle
  | cons s spans ih => exact ⟨h.1, h.2.1, ih h.2.2⟩

/-- One more span. -/
theorem InOrder.concat (h : InOrder first spans middle) (hle : middle ≤ last) :
    InOrder first (spans ++ [⟨middle, last⟩]) last := by
  induction spans generalizing first with
  | nil => exact ⟨h, hle, Nat.le_refl last⟩
  | cons s spans ih => exact ⟨h.1, h.2.1, ih h.2.2⟩

theorem Tile.concat (h : Tile first spans middle) (last : Nat) :
    Tile first (spans ++ [⟨middle, last⟩]) last := by
  induction spans generalizing first with
  | nil => exact ⟨h.symm, rfl⟩
  | cons s spans ih => exact ⟨h.1, ih h.2⟩

end Span

/-! ### Bytes of a source -/

namespace Text

theorem utf8ByteSize_ofList (cs : List Char) : (String.ofList cs).utf8ByteSize = byteLength cs := by
  rw [String.utf8ByteSize_ofList]
  induction cs with
  | nil => rfl
  | cons c cs ih =>
    rw [String.utf8Len, byteLength, ih]
    omega

variable {source : String} {cs ds : List Char}

/-- After the first characters of a source stands a character or its end. -/
theorem isValid_byteLength (h : source.toList = cs ++ ds) :
    String.Pos.Raw.IsValid source ⟨byteLength cs⟩ := by
  rw [String.Pos.Raw.isValid_iff_exists_append]
  refine ⟨String.ofList cs, String.ofList ds, ?_, ?_⟩
  · rw [← String.ofList_append, ← h, String.ofList_toList]
  · rw [String.rawEndPos, utf8ByteSize_ofList]

theorem utf8ByteSize_eq (h : source.toList = cs ++ ds) :
    source.utf8ByteSize = byteLength cs + byteLength ds := by
  rw [← byteLength_append, ← h, ← utf8ByteSize_ofList, String.ofList_toList]

theorem byteLength_pos (h : cs ≠ []) : 0 < byteLength cs :=
  Nat.lt_of_lt_of_le (List.length_pos_iff.2 h) (length_le_byteLength cs)

end Text

/-- The byte that an error reports. -/
def LexError.offset? : LexError → Option Nat
  | stalled _ offset => some offset
  | noMatch _ offset => some offset
  | _ => none

namespace TokenizeOptions

variable (options : TokenizeOptions) {source : String} {offset offset' : Nat}

theorem place_le (offset : Nat) : options.place offset ≤ offset := by
  unfold place
  split
  · exact Nat.le_refl offset
  · exact Nat.zero_le offset

theorem place_mono (h : offset ≤ offset') : options.place offset ≤ options.place offset' := by
  unfold place
  split
  · exact h
  · exact Nat.le_refl 0

theorem isValid_place (h : String.Pos.Raw.IsValid source ⟨offset⟩) :
    String.Pos.Raw.IsValid source ⟨options.place offset⟩ := by
  unfold place
  split
  · exact h
  · exact String.Pos.Raw.isValid_zero

end TokenizeOptions

namespace Lexer

variable {l : Lexer} {options : TokenizeOptions} {s s' : Scan}

/-! ### States -/

/-- There is a state to start in, and actions lead to states of the lexer. -/
structure Closed (l : Lexer) : Prop where
  pos : 0 < l.states.size
  target : ∀ r ∈ l.rules, ∀ q, r.target = some q → q < l.states.size

theorem lt_of_stateIndex {names : List String} {name : String} {index : Nat}
    (h : stateIndex names name = .ok index) : index < names.length := by
  unfold stateIndex at h
  split at h
  · rename_i index' hindex
    cases h
    exact (List.findIdx?_eq_some_iff_getElem.1 hindex).1
  · cases h

theorem exists_stateIndex {names : List String} {name : String} (h : name ∈ names) :
    ∃ index, stateIndex names name = .ok index := by
  have hfind := List.findIdx?_eq_some_of_exists (p := (· == name)) ⟨name, h, beq_self_eq_true _⟩
  rw [stateIndex, hfind]
  exact ⟨_, rfl⟩

theorem target_lt_of_compile {names : List String} {rule : TokenRule} {r : CompiledRule}
    (h : rule.compile names = .ok r) {q : Nat} (hq : r.target = some q) : q < names.length := by
  unfold TokenRule.compile at h
  split at h
  · cases h
  dsimp only at h
  split at h
  · obtain ⟨index, hindex, h⟩ := bind_eq_ok_iff.1 h
    cases h
    obtain rfl : index = q := Option.some.inj hq
    exact lt_of_stateIndex hindex
  · cases h
    cases hq

theorem closed_of_make {states : List LexerState} (h : make states = .ok l) : l.Closed := by
  unfold make at h
  split at h
  · cases h
  rename_i hempty
  obtain ⟨compiled, hcompiled, h⟩ := bind_eq_ok_iff.1 h
  cases h
  have hcompiled := mapM_eq_ok_iff.1 hcompiled
  have hlength : states.length = compiled.length := hcompiled.length_eq
  have hsize : (compiled.toArray).size = states.length := by rw [List.size_toArray, hlength]
  refine ⟨?_, ?_⟩
  · rw [hsize, List.length_pos_iff]
    rintro rfl
    exact hempty rfl
  · intro r hr q hq
    rw [hsize]
    obtain ⟨state, hstate, hr⟩ := List.mem_flatMap.1 hr
    obtain ⟨source, hsource, hcompile⟩ := exists_of_forall₂_of_mem hcompiled hstate
    unfold LexerState.compile at hcompile
    split at hcompile
    · cases hcompile
    obtain ⟨rules, hrules, heq⟩ := bind_eq_ok_iff.1 hcompile
    cases heq
    obtain ⟨rule, -, hrule⟩ := exists_of_forall₂_of_mem (mapM_eq_ok_iff.1 hrules) hr
    have hlt := target_lt_of_compile hrule hq
    rwa [List.length_map] at hlt

/-- The states of a run's start are the lexer's, if those that it names are. -/
theorem Closed.initialStack (hl : l.Closed)
    (hnames : ∀ name ∈ options.initial, name ∈ l.stateNames) :
    ∃ current below, l.initialStack options = .ok (current, below) ∧
      ∀ q ∈ current :: below, q < l.states.size := by
  have hindex : ∀ name ∈ options.initial, ∃ q, stateIndex l.stateNames name = .ok q ∧
      q < l.states.size := by
    intro name hname
    obtain ⟨q, hq⟩ := exists_stateIndex (hnames name hname)
    have hlt := lt_of_stateIndex hq
    rw [stateNames, List.length_map, Array.length_toList] at hlt
    exact ⟨q, hq, hlt⟩
  obtain ⟨indices, hindices, hknown⟩ := exists_mapM_eq_ok hindex
  unfold Lexer.initialStack
  rw [hindices]
  simp only [bind, Except.bind]
  cases hreverse : indices.reverse with
  | nil => exact ⟨0, [], rfl, by simpa using hl.pos⟩
  | cons current below =>
    refine ⟨current, below, rfl, ?_⟩
    intro q hq
    rw [← hreverse] at hq
    exact hknown q (List.mem_reverse.1 hq)

/-- An action leads to states of the lexer. -/
theorem Closed.act (hl : l.Closed) {r : CompiledRule} (hr : r ∈ l.rules) {state : String}
    {current : Nat} {below : List Nat} (hknown : ∀ q ∈ current :: below, q < l.states.size)
    {stack : Nat × List Nat} (h : act r state current below = .ok stack) :
    ∀ q ∈ stack.1 :: stack.2, q < l.states.size := by
  obtain ⟨hcurrent, hbelow⟩ := List.forall_mem_cons.1 hknown
  unfold Lexer.act at h
  split at h
  case h_1 target _ htarget =>
    cases h
    exact List.forall_mem_cons.2 ⟨hl.target r hr target htarget, hbelow⟩
  case h_2 target _ htarget =>
    cases h
    exact List.forall_mem_cons.2 ⟨hl.target r hr target htarget, hknown⟩
  case h_3 =>
    split at h
    · cases h
    · cases h
      exact hbelow
  case h_4 =>
    cases h
    exact hknown

/-! ### One match and all of them -/

/-- What a run has made of a source: all up to its place. -/
structure Covering (l : Lexer) (options : TokenizeOptions) (source : String) (s : Scan) :
    Prop where
  known : ∀ q ∈ s.current :: s.below, q < l.states.size
  taken : ∃ taken, source.toList = taken ++ s.rest ∧ s.offset = Text.byteLength taken
  valid : ∀ t ∈ s.tokens, String.Pos.Raw.IsValid source ⟨t.span.start⟩ ∧
    String.Pos.Raw.IsValid source ⟨t.span.stop⟩
  inOrder : Span.InOrder 0 (s.tokens.reverse.map (·.span)) (options.place s.offset)
  tile : (∀ r ∈ l.rules, r.rule.discard = false) →
    Span.Tile 0 (s.tokens.reverse.map (·.span)) (options.place s.offset)

variable {source : String}

theorem Covering.isValid_offset (h : l.Covering options source s) :
    String.Pos.Raw.IsValid source ⟨s.offset⟩ := by
  obtain ⟨taken, hsource, hoffset⟩ := h.taken
  rw [hoffset]
  exact Text.isValid_byteLength hsource

theorem Covering.offset_lt (h : l.Covering options source s) (hrest : s.rest ≠ []) :
    s.offset < source.utf8ByteSize := by
  obtain ⟨taken, hsource, hoffset⟩ := h.taken
  have hsize := Text.utf8ByteSize_eq hsource
  have hpos := Text.byteLength_pos hrest
  omega

theorem Covering.offset_eq (h : l.Covering options source s) (hrest : s.rest = []) :
    s.offset = source.utf8ByteSize := by
  obtain ⟨taken, hsource, hoffset⟩ := h.taken
  have hsize := Text.utf8ByteSize_eq hsource
  rw [hrest, Text.byteLength] at hsize
  omega

/-- A match leaves no gap. -/
theorem Covering.step (hl : l.Closed) (h : l.Covering options source s)
    (hstep : l.step options s = .ok s') : l.Covering options source s' := by
  obtain ⟨state, r, m, stack, hstate, hmatch, -, hact, rfl⟩ := exists_match_of_step hstep
  have hr := mem_rules_of_firstMatch? hstate hmatch
  obtain ⟨taken, hsource, hoffset⟩ := h.taken
  have hsource' : source.toList = (taken ++ s.rest.take m.stop) ++ s.rest.drop m.stop := by
    rw [List.append_assoc, List.take_append_drop]
    exact hsource
  have hoffset' : s.offset + Text.byteLength (s.rest.take m.stop) =
      Text.byteLength (taken ++ s.rest.take m.stop) := by
    rw [Text.byteLength_append, hoffset]
  have hle := options.place_mono (Nat.le_add_right s.offset (Text.byteLength (s.rest.take m.stop)))
  have hvalid' := Text.isValid_byteLength hsource'
  rw [← hoffset'] at hvalid'
  refine ⟨hl.act hr h.known hact, ⟨_, hsource', hoffset'⟩, ?_, ?_, ?_⟩
  all_goals dsimp only; cases hdiscard : r.rule.discard
  · -- the new token begins where the match does and ends where it does
    refine List.forall_mem_cons.2 ⟨⟨?_, ?_⟩, h.valid⟩
    · exact options.isValid_place h.isValid_offset
    · exact options.isValid_place hvalid'
  · exact h.valid
  · rw [if_neg Bool.false_ne_true, List.reverse_cons, List.map_append]
    exact h.inOrder.concat hle
  · exact h.inOrder.mono hle
  · intro hkept
    rw [if_neg Bool.false_ne_true, List.reverse_cons, List.map_append]
    exact (h.tile hkept).concat _
  · -- a discarded rule leaves a gap, but there is none
    intro hkept
    exact absurd (hkept r hr) (by rw [hdiscard]; decide)

/-- A run covers its source as far as it has come. -/
theorem Covering.runs (hl : l.Closed) (h : l.Covering options source s) {u : StackScan}
    (hruns : Relation.ReflTransGen (l.Matches options) s.toStack u) :
    ∃ t, u = t.toStack ∧ l.Covering options source t := by
  obtain ⟨t, rfl, hsteps⟩ := exists_scan_of_advances hruns
  clear hruns
  refine ⟨t, rfl, ?_⟩
  induction hsteps with
  | refl => exact h
  | tail _ hstep ih => exact ih.step hl hstep.2

/-- A match that cannot be made reports where it was tried. -/
theorem offset_of_step_eq_error {e : LexError} (h : l.step options s = .error e) {offset : Nat}
    (he : e.offset? = some offset) : offset = s.offset := by
  unfold Lexer.step at h
  split at h
  · cases h
    cases he
  split at h
  · cases h
    exact (Option.some.inj he).symm
  split at h
  · cases h
    exact (Option.some.inj he).symm
  -- the error is of an action, which reports no place
  rename_i state _ _ r m _ _
  cases hact : Lexer.act r state.name s.current s.below with
  | ok stack =>
    rw [hact] at h
    cases h
  | error e' =>
    rw [hact] at h
    cases h
    unfold Lexer.act at hact
    split at hact
    all_goals try split at hact
    all_goals cases hact
    cases he

/-- Tokens that stand one after the other, each between two characters of a source, and that leave
no gap if no rule is discarded. -/
structure Covers (l : Lexer) (options : TokenizeOptions) (source : String)
    (tokens : List LexToken) : Prop where
  valid : ∀ t ∈ tokens, String.Pos.Raw.IsValid source ⟨t.span.start⟩ ∧
    String.Pos.Raw.IsValid source ⟨t.span.stop⟩
  inOrder : Span.InOrder 0 (tokens.map (·.span)) source.utf8ByteSize
  tile : options.trackPositions = true → (∀ r ∈ l.rules, r.rule.discard = false) →
    Span.Tile 0 (tokens.map (·.span)) source.utf8ByteSize

/-- At the end of the source its tokens cover it. -/
theorem Covering.covers (h : l.Covering options source s) (hrest : s.rest = []) :
    l.Covers options source s.tokens.reverse := by
  have hoffset := h.offset_eq hrest
  refine ⟨?_, ?_, ?_⟩
  · intro t ht
    exact h.valid t (List.mem_reverse.1 ht)
  · refine h.inOrder.mono ?_
    rw [← hoffset]
    exact options.place_le s.offset
  · intro htrack hkept
    have htile := h.tile hkept
    rwa [TokenizeOptions.place, if_pos htrack, hoffset] at htile

/-- A lexer takes a source from its start to its end.  A run always has a current state of the
lexer and stands between two characters, and it makes its tokens only at the end of the source,
which they cover.  An error that reports a place does so before a character.  Without places the run
makes the same tokens, or the same error. -/
theorem tokenize_covers {states : List LexerState} {l : Lexer} (hmake : make states = .ok l)
    (options : TokenizeOptions) (hknown : ∀ name ∈ options.initial, name ∈ l.stateNames)
    (source : String) :
    ∃ start : StackScan, l.firstStack options = .ok start.stack ∧
      start = ⟨start.stack, 0, source.toList, []⟩ ∧
      l.tokenizeWith options source = l.loop options
        (matchBound l.states.size start.stack.tail.length source.toList.length) start ∧
      (∀ u, Relation.ReflTransGen (l.Matches options) start u →
        u.stack ≠ [] ∧ (∀ q ∈ u.stack, q < l.states.size) ∧
        ∃ taken, source.toList = taken ++ u.rest ∧ u.offset = Text.byteLength taken) ∧
      ∀ fuel,
        (∀ tokens, l.loop options fuel start = .ok tokens →
          (∃ u, Relation.ReflTransGen (l.Matches options) start u ∧ u.rest = [] ∧
            u.offset = source.utf8ByteSize ∧ tokens = u.tokens.reverse) ∧
          l.Covers options source tokens) ∧
        (∀ e offset, l.loop options fuel start = .error e → e.offset? = some offset →
          String.Pos.Raw.IsValid source ⟨offset⟩ ∧ offset < source.utf8ByteSize) ∧
        l.loop { options with trackPositions := false } fuel start =
          (l.loop options fuel start).map (List.map LexToken.detach) := by
  have hl := closed_of_make hmake
  obtain ⟨current, below, hinitial, hstates⟩ := hl.initialStack hknown
  let start : Scan := ⟨current, below, 0, source.toList, []⟩
  have hplace : options.place 0 = 0 := Nat.le_zero.1 (options.place_le 0)
  have hstart : l.Covering options source start :=
    ⟨hstates, ⟨[], rfl, rfl⟩, List.forall_mem_nil _, Nat.zero_le _, fun _ => hplace.symm⟩
  refine ⟨start.toStack, ?_, rfl, ?_, ?_, fun fuel => ⟨?_, ?_, ?_⟩⟩
  · rw [firstStack_eq, hinitial]
    rfl
  · rw [loop_toStack, tokenizeWith, hinitial]
    rfl
  · intro u hruns
    obtain ⟨t, rfl, ht⟩ := hstart.runs hl hruns
    exact ⟨List.cons_ne_nil _ _, ht.known, ht.taken⟩
  · intro tokens htokens
    obtain ⟨u, hruns, hend, rfl⟩ := exists_end_of_loop htokens
    obtain ⟨t, rfl, ht⟩ := hstart.runs hl hruns
    -- the stack is not empty, so this is the end of the source
    have hrest : t.rest = [] := hend.resolve_right (List.cons_ne_nil _ _)
    exact ⟨⟨_, hruns, hrest, ht.offset_eq hrest, rfl⟩, ht.covers hrest⟩
  · intro e offset herror he
    rcases exists_error_of_loop herror with rfl | ⟨u, q, hruns, hrest, hhead, hmatch⟩
    · cases he
    obtain ⟨t, rfl, ht⟩ := hstart.runs hl hruns
    obtain rfl : t.current = q := Option.some.inj hhead
    rw [matchOn_toStack, map_eq_error_iff] at hmatch
    obtain rfl := offset_of_step_eq_error hmatch he
    exact ⟨ht.isValid_offset, ht.offset_lt hrest⟩
  · rw [loop_toStack, loop_toStack]
    exact l.scan_detach options fuel start

/-- A run that starts above another state and takes nothing on its way back to it. -/
theorem tokenize_covers_nested :
    let states : List LexerState :=
      [⟨"main", [.make "mark" "é"]⟩,
        ⟨"inner", [.make "letter" "[a-z]", (TokenRule.make "leave" "").then .pop]⟩]
    ∃ l, make states = .ok l ∧ ∃ tokens,
      l.tokenizeWith { initial := ["main", "inner"] } "abé" = .ok tokens ∧
      tokens.map (·.span) = [⟨0, 1⟩, ⟨1, 2⟩, ⟨2, 2⟩, ⟨2, 4⟩] ∧
      Span.Tile 0 (tokens.map (·.span)) 4 := by
  intro states
  have hruns : (make states).toOption.map (fun l =>
      (l.stateNames, l.rules.all (fun r => !r.rule.discard),
        (l.tokenizeWith { initial := ["main", "inner"] } "abé").toOption.map
          (List.map (·.span)))) =
      some (["main", "inner"], true, some [⟨0, 1⟩, ⟨1, 2⟩, ⟨2, 2⟩, ⟨2, 4⟩]) := by
    decide +kernel
  obtain ⟨l, hmake, hl⟩ := Option.map_eq_some_iff.1 hruns
  rw [toOption_eq_some_iff] at hmake
  have hnames : l.stateNames = ["main", "inner"] := (Prod.ext_iff.1 hl).1
  obtain ⟨hkept, htokens⟩ := Prod.ext_iff.1 (Prod.ext_iff.1 hl).2
  obtain ⟨tokens, htokenize, hspans⟩ := Option.map_eq_some_iff.1 htokens
  rw [toOption_eq_some_iff] at htokenize
  refine ⟨l, hmake, tokens, htokenize, hspans, ?_⟩
  have hknown : ∀ name ∈ ["main", "inner"], name ∈ l.stateNames := by
    intro name hname
    rwa [hnames]
  obtain ⟨start, -, -, hloop, -, hcovers⟩ :=
    tokenize_covers hmake { initial := ["main", "inner"] } hknown "abé"
  rw [hloop] at htokenize
  refine ((hcovers _).1 tokens htokenize).2.tile rfl ?_
  intro r hr
  simpa using List.all_eq_true.1 hkept r hr

end Lexer

end ReversibleGrammar
