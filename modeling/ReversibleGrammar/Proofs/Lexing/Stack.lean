/-
Runs of a lexer with a plain stack.

A scan holds the current state apart from the states below it, so that it has one at any time.  A
run that keeps all states in one list and is left when the list is empty makes the same tokens: a
rule that would empty the list is an error.

* `actOn`, `matchOn`, `loop` — an action, a match and a run, with a plain stack;
* `loop_cases`, `exists_end_of_loop`, `exists_error_of_loop` — where a run ends and where it stops;
* `matchOn_toStack`, `loop_toStack` — matches and runs are those of scans;
* `exists_scan_of_advances` — whatever a run comes to is a scan, and holds a state.
-/
import ReversibleGrammar.Proofs.Lexing.Scan

namespace ReversibleGrammar

/-- A run with its states in one list, the current one first. -/
structure StackScan where
  stack : List Nat
  /-- The bytes taken. -/
  offset : Nat
  rest : List Char
  /-- The tokens made, the last one first. -/
  tokens : List LexToken

/-- The scan with its states in one list. -/
def Scan.toStack (s : Scan) : StackScan := ⟨s.current :: s.below, s.offset, s.rest, s.tokens⟩

namespace Lexer

/-- The stack after the action of a rule in the state called `state`. -/
def actOn (r : CompiledRule) (state : String) (stack : List Nat) : Except LexError (List Nat) :=
  match r.rule.action, r.target with
  | some (.next _), some target =>
    match stack with
    | [] => .ok []
    | _ :: below => .ok (target :: below)
  | some (.push _), some target => .ok (target :: stack)
  | some .pop, _ =>
    if stack.length = 1 then .error (.popEmpty r.rule.name state) else .ok stack.tail
  | _, _ => .ok stack

/-- One match in a state. -/
def matchOn (l : Lexer) (options : TokenizeOptions) (current : Nat) (s : StackScan) :
    Except LexError StackScan :=
  match l.states[current]? with
  | none => .error (.unknownState (toString current))
  | some state =>
    match firstMatch? state.rules s.rest with
    | none => .error (.noMatch state.name s.offset)
    | some (r, m) =>
      if m.stop = 0 && r.rule.action.isNone then .error (.stalled r.rule.name s.offset)
      else
        let offset := s.offset + Text.byteLength (s.rest.take m.stop)
        let span := if options.trackPositions then ⟨s.offset, offset⟩ else Span.none
        let tokens :=
          if r.rule.discard then s.tokens else ⟨r.rule.name, m.groups, span⟩ :: s.tokens
        (actOn r state.name s.stack).map fun stack => ⟨stack, offset, s.rest.drop m.stop, tokens⟩

/-- Matches to the end of the source, as far as the fuel goes; a run without a current state is left
there. -/
def loop (l : Lexer) (options : TokenizeOptions) :
    Nat → StackScan → Except LexError (List LexToken)
  | fuel, s =>
    if s.rest.isEmpty then .ok s.tokens.reverse
    else
      match s.stack with
      | [] => .ok s.tokens.reverse
      | current :: _ =>
        match fuel with
        | 0 => .error .endless
        | fuel + 1 =>
          match l.matchOn options current s with
          | .error e => .error e
          | .ok s => l.loop options fuel s

/-- A match before the end of the source, in the current state. -/
def Matches (l : Lexer) (options : TokenizeOptions) (s s' : StackScan) : Prop :=
  s.rest ≠ [] ∧ ∃ current, s.stack.head? = some current ∧ l.matchOn options current s = .ok s'

/-- The states that a run starts with, the current one first. -/
def firstStack (l : Lexer) (options : TokenizeOptions) : Except LexError (List Nat) :=
  if options.initial.isEmpty then .ok [0]
  else (options.initial.mapM (stateIndex l.stateNames)).map List.reverse

variable {l : Lexer} {options : TokenizeOptions}

/-- A run starts with a current state. -/
theorem firstStack_eq (l : Lexer) (options : TokenizeOptions) :
    l.firstStack options = (l.initialStack options).map fun stack => stack.1 :: stack.2 := by
  unfold firstStack initialStack
  cases hinitial : options.initial with
  | nil => rfl
  | cons name names =>
    rw [if_neg (by simp)]
    cases hindices : (name :: names).mapM (stateIndex l.stateNames) with
    | error e => rfl
    | ok indices =>
      -- a state for each name, so there is one
      have hlength : (name :: names).length = indices.length :=
        (mapM_eq_ok_iff.1 hindices).length_eq
      obtain ⟨current, below, hreverse⟩ : ∃ current below, indices.reverse = current :: below := by
        apply List.exists_cons_of_length_pos
        rw [List.length_reverse, ← hlength]
        exact Nat.succ_pos _
      show Except.ok indices.reverse = _
      simp only [bind, Except.bind, hreverse]
      rfl

/-- With a state in the list, an action does the same to the list. -/
theorem actOn_cons (r : CompiledRule) (state : String) (current : Nat) (below : List Nat) :
    actOn r state (current :: below) =
      (act r state current below).map fun stack => stack.1 :: stack.2 := by
  obtain ⟨⟨name, pattern, action, discard⟩, regex, groups, target⟩ := r
  cases action with
  | none => rfl
  | some action =>
    cases action with
    | next | push => cases target <;> rfl
    | pop =>
      -- the last state is not popped
      cases below with
      | nil => rfl
      | cons q below => rfl

/-- A match is the one of the scan. -/
theorem matchOn_toStack (l : Lexer) (options : TokenizeOptions) (s : Scan) :
    l.matchOn options s.current s.toStack = (l.step options s).map Scan.toStack := by
  unfold matchOn step Scan.toStack
  dsimp only
  cases l.states[s.current]? with
  | none => rfl
  | some state =>
    dsimp only
    cases firstMatch? state.rules s.rest with
    | none => rfl
    | some found =>
      obtain ⟨r, m⟩ := found
      dsimp only
      split
      · rfl
      · rw [actOn_cons]
        cases act r state.name s.current s.below with
        | error e => rfl
        | ok stack => rfl

/-- A run is over at the end of the source and without a state; elsewhere it takes a match. -/
theorem loop_cases (l : Lexer) (options : TokenizeOptions) (s : StackScan) :
    ((s.rest = [] ∨ s.stack = []) ∧ ∀ fuel, l.loop options fuel s = .ok s.tokens.reverse) ∨
      ∃ current, s.rest ≠ [] ∧ s.stack.head? = some current ∧
        l.loop options 0 s = .error .endless ∧
        ∀ fuel, l.loop options (fuel + 1) s =
          l.matchOn options current s >>= l.loop options fuel := by
  obtain ⟨stack, offset, rest, tokens⟩ := s
  cases rest with
  | nil =>
    refine .inl ⟨.inl rfl, fun fuel => ?_⟩
    unfold loop
    rfl
  | cons c rest =>
    cases stack with
    | nil =>
      refine .inl ⟨.inr rfl, fun fuel => ?_⟩
      unfold loop
      rfl
    | cons current below =>
      refine .inr ⟨current, List.cons_ne_nil c rest, rfl, by unfold loop; rfl, fun fuel => ?_⟩
      rw [loop, if_neg (by simp)]
      dsimp only
      cases l.matchOn options current ⟨current :: below, offset, c :: rest, tokens⟩ <;> rfl

/-- A run makes its tokens where matches come to the end of the source, or to an empty stack. -/
theorem exists_end_of_loop {fuel : Nat} {s : StackScan} {tokens : List LexToken}
    (h : l.loop options fuel s = .ok tokens) :
    ∃ u, Relation.ReflTransGen (l.Matches options) s u ∧ (u.rest = [] ∨ u.stack = []) ∧
      tokens = u.tokens.reverse := by
  induction fuel generalizing s with
  | zero =>
    rcases l.loop_cases options s with ⟨hend, hover⟩ | ⟨current, -, -, hendless, -⟩
    · rw [hover] at h
      exact ⟨s, .refl, hend, (Except.ok.inj h).symm⟩
    · rw [hendless] at h
      cases h
  | succ fuel ih =>
    rcases l.loop_cases options s with ⟨hend, hover⟩ | ⟨current, hrest, hhead, -, hmore⟩
    · rw [hover] at h
      exact ⟨s, .refl, hend, (Except.ok.inj h).symm⟩
    · rw [hmore, bind_eq_ok_iff] at h
      obtain ⟨next, hmatch, h⟩ := h
      obtain ⟨u, hruns, hend, htokens⟩ := ih h
      exact ⟨u, .head ⟨hrest, current, hhead, hmatch⟩ hruns, hend, htokens⟩

/-- A run stops with the error of a match that it comes to, or never ends. -/
theorem exists_error_of_loop {fuel : Nat} {s : StackScan} {e : LexError}
    (h : l.loop options fuel s = .error e) :
    e = .endless ∨ ∃ u current, Relation.ReflTransGen (l.Matches options) s u ∧ u.rest ≠ [] ∧
      u.stack.head? = some current ∧ l.matchOn options current u = .error e := by
  induction fuel generalizing s with
  | zero =>
    rcases l.loop_cases options s with ⟨-, hover⟩ | ⟨current, -, -, hendless, -⟩
    · rw [hover] at h
      cases h
    · rw [hendless] at h
      exact .inl (Except.error.inj h).symm
  | succ fuel ih =>
    rcases l.loop_cases options s with ⟨-, hover⟩ | ⟨current, hrest, hhead, -, hmore⟩
    · rw [hover] at h
      cases h
    rw [hmore] at h
    cases hmatch : l.matchOn options current s with
    | error e' =>
      rw [hmatch] at h
      cases h
      exact .inr ⟨s, current, .refl, hrest, hhead, hmatch⟩
    | ok next =>
      rw [hmatch] at h
      rcases ih h with rfl | ⟨u, q, hruns, hu⟩
      · exact .inl rfl
      · exact .inr ⟨u, q, .head ⟨hrest, current, hhead, hmatch⟩ hruns, hu⟩

/-- A run is the one of the scan. -/
theorem loop_toStack (l : Lexer) (options : TokenizeOptions) (fuel : Nat) (s : Scan) :
    l.loop options fuel s.toStack = l.scan options fuel s := by
  induction fuel generalizing s with
  | zero =>
    unfold loop scan
    rfl
  | succ fuel ih =>
    unfold loop scan
    by_cases hrest : s.rest.isEmpty = true
    · rw [if_pos hrest]
      exact if_pos hrest
    · rw [if_neg hrest]
      refine (if_neg hrest).trans ?_
      have hmatch : l.matchOn options s.current s.toStack = (l.step options s).map Scan.toStack :=
        l.matchOn_toStack options s
      simp only [Scan.toStack] at hmatch ⊢
      rw [hmatch]
      cases l.step options s with
      | error e => rfl
      | ok next => exact ih next

/-- What a run with a plain stack comes to from a scan, is a scan that matches come to. -/
theorem exists_scan_of_advances {s : Scan} {u : StackScan}
    (h : Relation.ReflTransGen (l.Matches options) s.toStack u) :
    ∃ t, u = t.toStack ∧
      Relation.ReflTransGen (fun s s' => s.rest ≠ [] ∧ l.step options s = .ok s') s t := by
  induction h with
  | refl => exact ⟨s, rfl, .refl⟩
  | @tail u v _ hmatch ih =>
    obtain ⟨t, rfl, hruns⟩ := ih
    obtain ⟨hrest, current, hcurrent, hmatch⟩ := hmatch
    obtain rfl : t.current = current := Option.some.inj hcurrent
    rw [matchOn_toStack, map_eq_ok_iff] at hmatch
    obtain ⟨t', hstep, rfl⟩ := hmatch
    exact ⟨t', rfl, hruns.tail ⟨hrest, hstep⟩⟩

end Lexer

end ReversibleGrammar
