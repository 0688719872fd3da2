/-
The levels of a left-recursive sum.

An expression is a sum, whose left operand is an expression, or a single term.  Called
at a position, it calls itself there again and again, until it has used up its bound.
The innermost call is cut off, and every call around it extends what the one inside
has matched, so that the matches come level by level.

* `Grammar.sums` — the grammar; the right operands are expressions or terms;
* `Sums.level` — the matches of an expression that nests sums to the left only so often;
* `Sums.Descending` — the tables on the way to the innermost call;
* `Sums.level_answers` — an expression that may call itself only so often lists a level.
-/
import ReversibleGrammar.Proofs.Recognizer.Apart

namespace ReversibleGrammar

namespace Sums

/-- The left operand, a reference to the rule of expressions. -/
def left : Pattern := { id := 0, kind := .thunk 0 }

def sign (plus : String) : Pattern := { id := 1, kind := .consume plus }

/-- The right operand, a reference to the rule with this number. -/
def right (rule : RuleId) : Pattern := { id := 2, kind := .thunk rule }

def sum : Pattern := { id := 3, kind := .sequence [0, 1, 2] }

/-- A single term, by reference to its rule. -/
def single : Pattern := { id := 4, kind := .thunk 1 }

def expression : Pattern := { id := 5, kind := .choice [3, 4] .parallel none }

def term (operand : String) : Pattern := { id := 6, kind := .consume operand }

end Sums

/-- Sums: an expression is an expression, a sign and a right operand, or a term.  Rule 0 is that of
expressions, and rule 1 that of terms. -/
def Grammar.sums (rule : RuleId) (plus operand : String) : Grammar where
  patterns := #[Sums.left, Sums.sign plus, Sums.right rule, Sums.sum, Sums.single, Sums.expression,
    Sums.term operand]
  rules := #[⟨"expr", 5⟩, ⟨"term", 6⟩]
  labels := #[]

theorem Grammar.built_sums_expression (plus operand : String) : (sums 0 plus operand).Built :=
  ⟨[.rule "expr", .consume plus, .rule "expr", .sequence [0, 1, 2], .rule "term",
    .parallelChoice [3, 4], .define "expr" 5, .consume operand, .define "term" 6], by cbv⟩

theorem Grammar.built_sums_term (plus operand : String) : (sums 1 plus operand).Built :=
  ⟨[.rule "expr", .consume plus, .rule "term", .sequence [0, 1, 2], .rule "term",
    .parallelChoice [3, 4], .define "expr" 5, .consume operand, .define "term" 6], by cbv⟩

theorem Grammar.noThunkCycle_sums (rule : RuleId) (plus operand : String) :
    (sums rule plus operand).NoThunkCycle := by
  refine noThunkCycle_of_bodies fun r hr p hp r' hkind => ?_
  have hr : r = ⟨"expr", 5⟩ ∨ r = ⟨"term", 6⟩ := by simpa [sums] using hr
  rcases hr with rfl | rfl <;> cases hp <;> cases hkind

namespace Sums

variable {τ ν : Type} [Token τ ν] (rule : RuleId) (plus operand : String) (tokens : Array τ)

/-! ### What the levels match -/

/-- The matches of other patterns, and those of a reference to the rule of expressions, given those
of expressions. -/
def withReference (id : PatternId) (p : Pattern) (read : Readings ν)
    (xs : Nat → List (Tree ν × Nat)) : Readings ν :=
  Function.update read id fun i => (xs i).map fun y => (.wrapped p y.1, y.2)

/-- Those of sums, too, given those of left operands. -/
def withSum (read : Readings ν) (xs : Nat → List (Tree ν × Nat)) : Readings ν :=
  Function.update read 3 fun i =>
    sum.readings (.sums rule plus operand) tokens (withReference 0 left read xs) i

/-- The matches of an expression that nests sums to the left less than `k` times, given those of
operands and signs. -/
def level (read : Readings ν) : Nat → Nat → List (Tree ν × Nat)
  | 0, _ => []
  | k + 1, i => expression.readings (.sums rule plus operand) tokens
    (withSum rule plus operand tokens read (level read k)) i

variable {rule plus operand tokens} {read : Readings ν}

/-- A level has the sums with a left operand of the level before, and the terms. -/
theorem level_succ (k i : Nat) : level rule plus operand tokens read (k + 1) i =
    ((level rule plus operand tokens read k i).flatMap fun x =>
      (read 1 x.2).flatMap fun z => (read 2 z.2).map fun y =>
        (.choice expression 0 (.sequence sum [.wrapped left x.1, z.1, y.1]), y.2)) ++
      (read 4 i).map fun y => (.choice expression 1 y.1, y.2) := by
  have h5 : expression.kind = .choice [3, 4] .parallel none := rfl
  have h3 : sum.kind = .sequence [0, 1, 2] := rfl
  simp [level, withSum, withReference, Pattern.readings, h5, h3, ChoiceMode.select,
    Readings.alternatives, Readings.prefixes, Readings.extendPrefix, List.flatMap_map,
    List.map_flatMap, List.flatMap_assoc, Function.comp_def]

theorem mem_level_succ {k i : Nat} {y : Tree ν × Nat} :
    y ∈ level rule plus operand tokens read (k + 1) i ↔
      (∃ x ∈ level rule plus operand tokens read k i, ∃ z ∈ read 1 x.2, ∃ w ∈ read 2 z.2,
        y = (.choice expression 0 (.sequence sum [.wrapped left x.1, z.1, w.1]), w.2)) ∨
      ∃ w ∈ read 4 i, y = (.choice expression 1 w.1, w.2) := by
  simp only [level_succ, List.mem_append, List.mem_flatMap, List.mem_map, eq_comm]

theorem nodup_wrapped (p : Pattern) {ys : List (Tree ν × Nat)} (h : (ys.map Prod.fst).Nodup) :
    ((ys.map fun y => (Tree.wrapped p y.1, y.2)).map Prod.fst).Nodup := by
  have heq : (ys.map fun y => (Tree.wrapped p y.1, y.2)).map Prod.fst =
      (ys.map Prod.fst).map (Tree.wrapped p) := by
    simp [Function.comp_def]
  rw [heq]
  exact h.map fun t t' h => by injection h

theorem distinct_withReference (id : PatternId) (p : Pattern) (hread : read.Distinct)
    {xs : Nat → List (Tree ν × Nat)} (hxs : ∀ i, ((xs i).map Prod.fst).Nodup) :
    (withReference id p read xs).Distinct := by
  intro other i
  by_cases hid : other = id
  · subst hid
    rw [withReference, Function.update_self]
    exact nodup_wrapped p (hxs i)
  · rw [withReference, Function.update_of_ne hid]
    exact hread other i

theorem distinct_withSum (hread : read.Distinct) {xs : Nat → List (Tree ν × Nat)}
    (hxs : ∀ i, ((xs i).map Prod.fst).Nodup) :
    (withSum rule plus operand tokens read xs).Distinct := by
  intro id i
  by_cases hid : id = 3
  · subst hid
    rw [withSum, Function.update_self]
    exact sum.readings_distinct _ tokens (distinct_withReference 0 left hread hxs) i
  · rw [withSum, Function.update_of_ne hid]
    exact hread id i

theorem level_nodup (hread : read.Distinct) (k : Nat) :
    ∀ i, ((level rule plus operand tokens read k i).map Prod.fst).Nodup := by
  induction k with
  | zero => exact fun _ => List.nodup_nil
  | succ k ih => exact expression.readings_distinct _ tokens (distinct_withSum hread ih)

theorem mem_readings_sign {i : Nat} {y : Tree ν × Nat} :
    y ∈ (Grammar.sums rule plus operand).readings tokens 2 1 i ↔
      ∃ token, tokens[i]? = some token ∧ Token.is token plus = true ∧
        y = (.leaf (sign plus) (Token.value token), i + 1) :=
  Pattern.mem_readings_consume (p := sign plus) rfl (.sums rule plus operand) tokens
    (Grammar.readings (.sums rule plus operand) tokens 1)

/-- References to the rule of terms match operands. -/
theorem mem_readings_term {id : PatternId} {p : Pattern}
    (hp : (Grammar.sums rule plus operand).pattern? id = some p) (hkind : p.kind = .thunk 1)
    {i : Nat} {y : Tree ν × Nat} : y ∈ (Grammar.sums rule plus operand).readings tokens 2 id i ↔
      ∃ token, tokens[i]? = some token ∧ Token.is token operand = true ∧
        y = (.wrapped p (.leaf (term operand) (Token.value token)), i + 1) := by
  have hwrapped : p.kind.wrapped? (.sums rule plus operand) = some (.thunk, 6) := by
    rw [hkind]
    rfl
  have hread : (Grammar.sums rule plus operand).readings tokens 2 id i =
      ((Grammar.sums rule plus operand).readings tokens 1 6 i).map fun y =>
        (.wrapped p y.1, y.2) := by
    rw [Grammar.readings, hp]
    exact Pattern.readings_wrapped hwrapped tokens _ i
  have hterm {y : Tree ν × Nat} : y ∈ (Grammar.sums rule plus operand).readings tokens 1 6 i ↔
      ∃ token, tokens[i]? = some token ∧ Token.is token operand = true ∧
        y = (.leaf (term operand) (Token.value token), i + 1) :=
    Pattern.mem_readings_consume (p := term operand) rfl (.sums rule plus operand) tokens
      (Grammar.readings (.sums rule plus operand) tokens 0)
  rw [hread, List.mem_map]
  constructor
  · rintro ⟨z, hz, rfl⟩
    obtain ⟨token, htoken, his, rfl⟩ := hterm.1 hz
    exact ⟨token, htoken, his, rfl⟩
  · rintro ⟨token, htoken, his, rfl⟩
    exact ⟨_, hterm.2 ⟨token, htoken, his, rfl⟩, rfl⟩

/-- Calls of references to the rule of terms list the operands. -/
theorem term_answers {ids : List PatternId} {Rest : Tables → Prop} {fault : Site → Prop}
    (hRest : Tables.Ignores (fun site => ∃ id ∈ ids, site.recognizer = .pattern id) Rest)
    {id : PatternId} (hid : id ∈ ids) (hterm : 6 ∈ ids) {p : Pattern}
    (hp : (Grammar.sums rule plus operand).pattern? id = some p)
    (hrecognizer : p.recognizer = .pattern id) (hkind : p.kind = .thunk 1) (context : Context)
    (i : Nat) : Answers (ν := ν) (.sums rule plus operand) tokens fault
      (Tables.Plain (.sums rule plus operand) tokens ids Rest)
      (Tables.Plain (.sums rule plus operand) tokens ids Rest) context id i
      ((Grammar.sums rule plus operand).readings tokens 2 id i) := by
  have hbody : (Grammar.sums rule plus operand).ruleBody? 1 = some 6 := rfl
  have hpterm : (Grammar.sums rule plus operand).pattern? 6 = some (term operand) := rfl
  have hne : id ≠ 6 := by
    rintro rfl
    rw [hpterm] at hp
    obtain rfl := Option.some.inj hp
    cases hkind
  exact Tables.Plain.reference_answers hRest hid hp hrecognizer hkind hbody hterm hpterm rfl rfl
    hne context i

/-! ### The way to the innermost call -/

/-- The site is one of those that an expression at the position comes back to. -/
def Recurring (i : Nat) (site : Site) : Prop :=
  site = ⟨i, .pattern 0⟩ ∨ site = ⟨i, .pattern 3⟩ ∨ site = ⟨i, .pattern 5⟩

theorem Recurring.index_eq {i : Nat} {site : Site} (h : Recurring i site) : site.index = i := by
  rcases h with rfl | rfl | rfl <;> rfl

/-- The context has not reached a position after this one. -/
def Before (i : Nat) (context : Context) : Prop := ∀ j, i < j → context.at? j = none

/-- At the position, expressions have been called `c` times, and sums `d` times, and there is no
result yet. -/
structure Descending (Inv : Tables → Prop) (i c d : Nat) (t : Tables) : Prop where
  inv : Inv t
  expression : t.counts.getD ⟨i, .pattern 5⟩ 0 = c
  sum : t.counts.getD ⟨i, .pattern 3⟩ 0 = d
  memo : ∀ {site}, Recurring i site → t.memo[site]? = none

theorem Before.enter {i depth : Nat} {context inner : Context} {r : Recognizer} {s t : Store}
    (h : Before i context) (henter : Store.enter context ⟨i, r⟩ depth s = (inner, t)) :
    Before i inner ∧ (inner.at? i).isSome := by
  refine ⟨fun j hj => ?_, by simp [Store.isSome_at?_enter henter]⟩
  have hsome := Store.isSome_at?_enter henter j
  rw [h j hj] at hsome
  have hne : (i == j) = false := by simpa using hj.ne
  simpa [hne] using hsome

section

variable {Inv : Tables → Prop} {i : Nat} {context : Context} {ys : List (Tree ν × Nat)}

theorem Descending.stable (hInv : Tables.Stable Inv) (i c d : Nat) :
    Tables.Stable (Descending Inv i c d) where
  sound h := hInv.sound h.inv
  withStore h hextends := ⟨hInv.withStore h.inv hextends, h.expression, h.sum, h.memo⟩

/-- At the start, nothing has been called. -/
theorem descending_empty (h : Inv .empty) (i : Nat) : Descending Inv i 0 0 .empty where
  inv := h
  expression := Std.TreeMap.getD_emptyc
  sum := Std.TreeMap.getD_emptyc
  memo _ := Std.TreeMap.getElem?_emptyc

theorem replay?_of_memo_none {t : Tables} {site : Site} (h : t.memo[site]? = none)
    (context : Context) : t.replay? site context = none := by
  simp only [Tables.replay?, h]

/-- Entering a site on the way counts. -/
theorem Descending.entered (hInv : Tables.Ignores (Recurring i) Inv) {c d : Nat} {t : Tables}
    (h : Descending Inv i c d t) {id : PatternId} (hrecurring : Recurring i ⟨i, .pattern id⟩)
    {store : Store} (hsound : store.Sound) (hgrows : t.store.Grows store) :
    Descending Inv i (if id = 5 then c + 1 else c) (if id = 3 then d + 1 else d)
      (t.entered ⟨i, .pattern id⟩ store) := by
  have hcount (other : PatternId) : (t.entered ⟨i, .pattern id⟩ store).counts.getD
      ⟨i, .pattern other⟩ 0 =
        if id = other then t.counts.getD ⟨i, .pattern other⟩ 0 + 1
        else t.counts.getD ⟨i, .pattern other⟩ 0 := by
    rw [counts_entered]
    by_cases heq : id = other
    · subst heq
      simp
    · simp [heq, Ne.symm heq]
  refine ⟨hInv.apart h.inv ⟨hsound, hgrows, fun hsite => ?_, fun _ => rfl, fun _ => rfl⟩, ?_, ?_,
    h.memo⟩
  · refine counts_entered_ne (fun heq => hsite ?_) store
    rw [heq]
    exact hrecurring
  · rw [hcount 5, h.expression]
  · rw [hcount 3, h.sum]

/-- A call on the way is matched, if it is within its bound. -/
theorem descending_call (hInv : Tables.Ignores (Recurring i) Inv) {id : PatternId} {p : Pattern}
    (hp : (Grammar.sums rule plus operand).pattern? id = some p) (hid : p.recognizer = .pattern id)
    (hrecurring : Recurring i ⟨i, .pattern id⟩) {c d : Nat}
    (hbound : p.kind.isBounded = true → ∀ t, Descending Inv i c d t →
      t.counts.getD ⟨i, .pattern id⟩ 0 ≤ tokens.size - i + 1)
    (hcontext : Before i context)
    (hevaluate : ∀ inner t, Before i inner → (inner.at? i).isSome →
      Descending Inv i (if id = 5 then c + 1 else c) (if id = 3 then d + 1 else d) t →
        p.Ensures (.sums rule plus operand) (.ofTokens tokens) (fun _ => False) i inner t
          (t.Answered (.sums rule plus operand) tokens Inv id ys)) :
    Answers (.sums rule plus operand) tokens (fun _ => False) (Descending Inv i c d) Inv context
      id i ys := by
  intro t ht
  have hs := hInv.sound ht.inv
  have hnone : t.replay? ⟨i, p.recognizer⟩ context = none := by
    rw [hid]
    exact replay?_of_memo_none (ht.memo hrecurring) context
  refine ensures_call hp (fun results hreplay => ?_) (fun _ hbounded hlt => ?_)
    fun _ _ inner store henter => ?_
  · rw [hnone] at hreplay
    cases hreplay
  · rw [hid] at hlt
    exact absurd (hbound hbounded t ht) (not_le.2 hlt)
  · rw [hid] at henter ⊢
    obtain ⟨hinner, hopen⟩ := hcontext.enter henter
    have happart := apart_entered hs henter
    have hentered := ht.entered hInv hrecurring happart.sound happart.grows
    refine (hevaluate inner _ hinner hopen hentered).mono fun results u hu => ?_
    have hus := hInv.sound hu.inv
    have hrecord : u.Apart (Recurring i) (u.record ⟨i, .pattern id⟩ results) :=
      (apart_record hus results).mono fun site hsite => by
        rw [hsite]
        exact hrecurring
    exact ⟨hInv.apart hu.inv hrecord, happart.grows.trans hu.grows, hu.lists⟩

/-- The sign and the right operand of a sum. -/
theorem sum_children_cases {before later : List PatternId} {child : PatternId}
    (h : [1, 2] = before ++ child :: later) :
    before = [] ∧ child = 1 ∨ before = [1] ∧ child = 2 := by
  match before with
  | [] => simp_all
  | [_] => simp_all
  | _ :: _ :: before => simp at h

theorem mem_prefixes_left {xs : Nat → List (Tree ν × Nat)} {x : List (Tree ν) × Nat}
    (h : x ∈ (withReference 0 left read xs).prefixes [0] i) : ∃ y ∈ xs i, x.2 = y.2 := by
  simp only [Readings.prefixes, List.foldl_cons, List.foldl_nil, List.flatMap_cons,
    List.flatMap_nil, List.append_nil, Readings.extendPrefix, withReference, Function.update_self,
    List.map_map, List.mem_map] at h
  obtain ⟨y, hy, rfl⟩ := h
  exact ⟨y, hy, rfl⟩

theorem mem_prefixes_sign {xs : Nat → List (Tree ν × Nat)} {x : List (Tree ν) × Nat}
    (h : x ∈ (withReference 0 left read xs).prefixes [0, 1] i) :
    ∃ y ∈ xs i, ∃ z ∈ read 1 y.2, x.2 = z.2 := by
  rw [show ([0, 1] : List PatternId) = [0] ++ [1] from rfl, prefixes_append_singleton] at h
  obtain ⟨before, hbefore, hx⟩ := List.mem_flatMap.1 h
  obtain ⟨y, hy, hstop⟩ := mem_prefixes_left hbefore
  obtain ⟨z, hz, rfl⟩ := List.mem_map.1 hx
  rw [withReference, Function.update_of_ne (by decide), hstop] at hz
  exact ⟨y, hy, z, hz, rfl⟩

/-- An expression that may call itself `k` times more lists the matches of the `k`th level. -/
theorem level_answers (hInv : Tables.Ignores (Recurring i) Inv) (hread : read.Distinct)
    (hsingle : ∀ inner, Before i inner → Answers (.sums rule plus operand) tokens (fun _ => False)
      Inv Inv inner 4 i (read 4 i))
    (hsign : ∀ k inner, Before i inner → ∀ x ∈ level rule plus operand tokens read k i,
      Answers (.sums rule plus operand) tokens (fun _ => False) Inv Inv inner 1 x.2 (read 1 x.2))
    (hright : ∀ k inner, Before i inner → ∀ x ∈ level rule plus operand tokens read k i,
      ∀ z ∈ read 1 x.2, Answers (.sums rule plus operand) tokens (fun _ => False) Inv Inv inner
        2 z.2 (read 2 z.2))
    {k c : Nat} (hk : c + k = tokens.size - i + 2) (hcontext : Before i context)
    (hopen : k = 0 → (context.at? i).isSome) :
    Answers (.sums rule plus operand) tokens (fun _ => False) (Descending Inv i c c) Inv context
      5 i (level rule plus operand tokens read k i) := by
  have hp5 : (Grammar.sums rule plus operand).pattern? 5 = some expression := rfl
  have hp3 : (Grammar.sums rule plus operand).pattern? 3 = some sum := rfl
  have hp0 : (Grammar.sums rule plus operand).pattern? 0 = some left := rfl
  induction k generalizing c context with
  | zero =>
    -- the innermost call is cut off
    intro t ht
    have hs := hInv.sound ht.inv
    have hnone : t.replay? ⟨i, expression.recognizer⟩ context = none :=
      replay?_of_memo_none (ht.memo (.inr (.inr rfl))) context
    have hcount : t.counts.getD ⟨i, expression.recognizer⟩ 0 = c := ht.expression
    refine ensures_call hp5 (fun results hreplay => ?_)
      (fun _ hbounded hlt => ⟨fun hmap => ?_, fun map failure store hmap hfailure => ?_⟩)
      fun _ hle inner store henter => ?_
    · rw [hnone] at hreplay
      cases hreplay
    · rw [hmap] at hopen
      cases hopen rfl
    · obtain ⟨r, s, kind, hstored, hextends, -, hr⟩ := hs.failure_eq .infiniteRecursion i map
      rw [hstored] at hfailure
      cases hfailure
      exact ⟨hInv.stable.withStore ht.inv hextends, hextends.grows,
        (Store.lists_nil _).cons_failed ⟨kind, _, _, hr⟩⟩
    · have hle := hle rfl
      rw [hcount] at hle
      have hsize : (Input.ofTokens tokens).size = tokens.size := rfl
      omega
  | succ k ih =>
    have hlevel : ∀ i, ((level rule plus operand tokens read k i).map Prod.fst).Nodup :=
      level_nodup hread k
    have hdistinct : (withSum rule plus operand tokens read
        (level rule plus operand tokens read k)).Distinct := distinct_withSum hread hlevel
    have hnodup : ((level rule plus operand tokens read (k + 1) i).map Prod.fst).Nodup :=
      level_nodup hread (k + 1) i
    have hbound (t : Tables) (ht : Descending Inv i c c t) :
        t.counts.getD ⟨i, .pattern 5⟩ 0 ≤ tokens.size - i + 1 := by
      rw [ht.expression]
      omega
    -- the expression calls the sum first, and then the single term
    refine descending_call hInv hp5 rfl (.inr (.inr rfl)) (fun _ => hbound) hcontext
      fun inner t hinner _ (ht : Descending Inv i (c + 1) c t) => ?_
    refine choice_ensures hp5 rfl ?_ (fun a _ => hdistinct a i) hnodup ht
    rw [Readings.tried_parallel]
    refine .cons (Descending.stable hInv.stable i _ _) ?_
      (.cons hInv.stable (hsingle inner hinner) (.nil hInv.stable))
    · rw [withSum, Function.update_self]
      have hbound (t : Tables) (ht : Descending Inv i (c + 1) c t) :
          t.counts.getD ⟨i, .pattern 3⟩ 0 ≤ tokens.size - i + 1 := by
        rw [ht.sum]
        omega
      -- the sum calls its left operand first, and then the others
      refine descending_call hInv hp3 rfl (.inr (.inl rfl)) (fun _ => hbound) hinner
        fun inner t hinner _ (ht : Descending Inv i (c + 1) (c + 1) t) => ?_
      have hdistinct : (withReference 0 left read
          (level rule plus operand tokens read k)).Distinct :=
        distinct_withReference 0 left hread hlevel
      refine sequence_ensures hp3 rfl hdistinct (.cons (Descending.stable hInv.stable i _ _) ?_
        (answersAll_of_forall hInv.stable fun x hx => ?_)) ht
      · rw [withReference, Function.update_self]
        refine descending_call hInv hp0 rfl (.inl rfl) nofun hinner
          fun inner t hinner hopen (ht : Descending Inv i (c + 1) (c + 1) t) => ?_
        exact wrapped_ensures hInv.stable hp0 rfl (ih (by omega) hinner fun _ => hopen) ht
      · obtain ⟨between, after, hchildren, y, hy, hstop⟩ :=
          Readings.mem_callsAfter [0] hx
        rw [hstop]
        rcases sum_children_cases hchildren with ⟨rfl, hchild⟩ | ⟨rfl, hchild⟩ <;> rw [hchild]
        · obtain ⟨z, hz, hstop⟩ := mem_prefixes_left hy
          rw [hstop]
          exact hsign k inner hinner z hz
        · obtain ⟨z, hz, w, hw, hstop⟩ := mem_prefixes_sign hy
          rw [hstop]
          exact hright k inner hinner z hz w hw

end

end Sums

end ReversibleGrammar
