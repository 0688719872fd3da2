/-
Parsing sees the types of tokens, and leaves keep their values.

Other tokens of the same types lead to fragments of the same form, and those are read as the same
trees but for the values at the leaves.

* `Fragment.SameForm` — two fragments differ in the numbers that they refer to only;
* `rebuildTo_map` — fragments that are alike are read as trees with other values, or both not;
* `candidates_map`, `parseUpTo_map`, `parseOne_map` — with other tokens, parsing comes to the same
  but for the values;
* `Candidate.Agrees` — the same match or failure, up to the values;
* `candidates_agree` — two token lists with the same types have candidates that agree one by one.
-/
import ReversibleGrammar.Lexer.Token
import ReversibleGrammar.Proofs.LeftRecursion.Levels
import ReversibleGrammar.Proofs.Grammar.Relabelling
import ReversibleGrammar.Proofs.Recognizer.Answer
import ReversibleGrammar.Proofs.Recognizer.Leaves
import ReversibleGrammar.Proofs.Recognizer.ResultSet
import ReversibleGrammar.Proofs.Recognizer.Simulation

namespace ReversibleGrammar

/-! ### Forms of fragments -/

namespace Fragment

/-- The fragments differ in the numbers that they refer to only. -/
inductive SameForm (values parts : Nat → Nat → Prop) : Fragment → Fragment → Prop
  | leaf {v v' : Nat} (h : values v v') : SameForm values parts (.leaf v) (.leaf v')
  | sequenceStart : SameForm values parts .sequenceStart .sequenceStart
  | sequenceStep {p p' q q' : FragmentId} (hp : parts p p') (hq : parts q q') :
      SameForm values parts (.sequenceStep p q) (.sequenceStep p' q')
  | choice (index : Nat) {p p' : FragmentId} (hp : parts p p') :
      SameForm values parts (.choice index p) (.choice index p')
  | manyStart : SameForm values parts .manyStart .manyStart
  | manyItem {p p' q q' : FragmentId} (hp : parts p p') (hq : parts q q') :
      SameForm values parts (.manyItem p q) (.manyItem p' q')
  | manySeparator {p p' q q' : FragmentId} (hp : parts p p') (hq : parts q q') :
      SameForm values parts (.manySeparator p q) (.manySeparator p' q')
  | absent : SameForm values parts .absent .absent
  | present {p p' : FragmentId} (hp : parts p p') :
      SameForm values parts (.present p) (.present p')
  | wrapped (wrapper : Wrapper) {p p' : FragmentId} (hp : parts p p') :
      SameForm values parts (.wrapped wrapper p) (.wrapped wrapper p')
  | mark (marker : Marker) : SameForm values parts (.mark marker) (.mark marker)

section

variable {values parts : Nat → Nat → Prop} {y y' : Fragment} {p p' q q' : FragmentId}

theorem SameForm.of_one (hskeleton : y.skeleton = y'.skeleton) (hparts : y.parts = [p])
    (hparts' : y'.parts = [p']) (hp : parts p p') : SameForm values parts y y' := by
  cases y with
  | choice index _ | present _ | wrapped wrapper _ =>
    cases y' <;> simp only [skeleton, choice.injEq, wrapped.injEq, and_true, reduceCtorEq]
      at hskeleton
    simp only [Fragment.parts, List.cons.injEq, and_true] at hparts hparts'
    subst hparts hparts'
    first
      | exact hskeleton ▸ .choice _ hp
      | exact .present hp
      | exact hskeleton ▸ .wrapped _ hp
  | _ => simp [Fragment.parts] at hparts

theorem SameForm.of_two (hskeleton : y.skeleton = y'.skeleton) (hparts : y.parts = [p, q])
    (hparts' : y'.parts = [p', q']) (hp : parts p p') (hq : parts q q') :
    SameForm values parts y y' := by
  cases y with
  | sequenceStep _ _ | manyItem _ _ | manySeparator _ _ =>
    cases y' <;> simp only [skeleton, reduceCtorEq] at hskeleton
    simp only [Fragment.parts, List.cons.injEq, and_true] at hparts hparts'
    obtain ⟨rfl, rfl⟩ := hparts
    obtain ⟨rfl, rfl⟩ := hparts'
    first
      | exact .sequenceStep hp hq
      | exact .manyItem hp hq
      | exact .manySeparator hp hq
  | _ => simp [Fragment.parts] at hparts

end

end Fragment

namespace Store

variable {input input' : Input} {s s' : Store} {x x' : FragmentId} {i j : Nat}

variable (input input' s s') in
/-- The fragments are alike, and stored before two others. -/
def PartsAlike (x x' p p' : FragmentId) : Prop :=
  p < x ∧ p' < x' ∧ ∃ i j, s.Alike input input' s' p p' i j

/-- Fragments that are alike have the same form, and so have their parts. -/
theorem Alike.sameForm (hs : s.Sound) (hs' : s'.Sound) (h : s.Alike input input' s' x x' i j) :
    ∃ y y', s.fragments.get? x = some y ∧ s'.fragments.get? x' = some y' ∧
      Fragment.SameForm (fun v v' => ∃ k < input.size, v = input.value k ∧ v' = input'.value k)
        (PartsAlike input input' s s' x x') y y' := by
  cases h with
  | leaf hx hx' hi => exact ⟨_, _, hx, hx', .leaf ⟨i, hi, rfl, rfl⟩⟩
  | @bare _ _ y _ hx hx' hleaf hparts =>
    refine ⟨_, _, hx, hx', ?_⟩
    cases y with
    | leaf _ => cases hleaf
    | sequenceStart => exact .sequenceStart
    | manyStart => exact .manyStart
    | absent => exact .absent
    | mark marker => exact .mark marker
    | _ => cases hparts
  | @one _ _ p p' _ _ _ _ hx hx' hskeleton hparts hparts' h =>
    have hpart : PartsAlike input input' s s' x x' p p' :=
      ⟨hs.parts_lt hx p (by simp [hparts]), hs'.parts_lt hx' p' (by simp [hparts']), _, _, h⟩
    exact ⟨_, _, hx, hx', .of_one hskeleton hparts hparts' hpart⟩
  | @two _ _ p p' q q' _ _ _ _ _ hx hx' hskeleton hparts hparts' hp hq =>
    have hfirst : PartsAlike input input' s s' x x' p p' :=
      ⟨hs.parts_lt hx p (by simp [hparts]), hs'.parts_lt hx' p' (by simp [hparts']), _, _, hp⟩
    have hlast : PartsAlike input input' s s' x x' q q' :=
      ⟨hs.parts_lt hx q (by simp [hparts]), hs'.parts_lt hx' q' (by simp [hparts']), _, _, hq⟩
    exact ⟨_, _, hx, hx', .of_two hskeleton hparts hparts' hfirst hlast⟩

theorem PartsAlike.mono {y y' p p' : FragmentId} (h : PartsAlike input input' s s' y y' p p')
    (hy : y < x) (hy' : y' < x') : PartsAlike input input' s s' x x' p p' :=
  ⟨h.1.trans hy, h.2.1.trans hy', h.2.2⟩

/-- Fragments that are alike are chains of as many children, which are alike. -/
theorem Alike.sequenceParts? (hs : s.Sound) (hs' : s'.Sound) {d d' : Nat} (hd : x < d)
    (hd' : x' < d') (h : s.Alike input input' s' x x' i j) :
    (ReversibleGrammar.sequenceParts? s.fragments d x = none ∧
      ReversibleGrammar.sequenceParts? s'.fragments d' x' = none) ∨
    ∃ parts parts', ReversibleGrammar.sequenceParts? s.fragments d x = some parts ∧
      ReversibleGrammar.sequenceParts? s'.fragments d' x' = some parts' ∧
      List.Forall₂ (PartsAlike input input' s s' x x') parts parts' := by
  induction d generalizing d' x x' i j with
  | zero => exact absurd hd (Nat.not_lt_zero x)
  | succ d ih =>
    obtain ⟨d', rfl⟩ := Nat.exists_eq_succ_of_ne_zero (Nat.ne_zero_of_lt hd')
    obtain ⟨y, y', hy, hy', hform⟩ := h.sameForm hs hs'
    unfold ReversibleGrammar.sequenceParts?
    rw [hy, hy']
    cases hform with
    | sequenceStart => exact .inr ⟨[], [], rfl, rfl, .nil⟩
    | sequenceStep hp hq =>
      obtain ⟨hlt, hlt', _, _, hbefore⟩ := hp
      rcases ih (hlt.trans_le (Nat.le_of_lt_succ hd))
        (hlt'.trans_le (Nat.le_of_lt_succ hd')) hbefore with ⟨hnone, hnone'⟩ |
        ⟨parts, parts', hparts, hparts', hall⟩
      · exact .inl ⟨by simp only [hnone, Option.map_none], by simp only [hnone', Option.map_none]⟩
      · refine .inr ⟨_, _, Option.map_eq_some_iff.2 ⟨parts, hparts, rfl⟩,
          Option.map_eq_some_iff.2 ⟨parts', hparts', rfl⟩, List.rel_append ?_ (.cons hq .nil)⟩
        exact hall.imp fun _ _ hpart => hpart.mono hlt hlt'
    | _ => exact .inl ⟨rfl, rfl⟩

/-- Fragments that are alike are chains of as many items and separators, which are alike. -/
theorem Alike.manyParts? (hs : s.Sound) (hs' : s'.Sound) {d d' : Nat} (hd : x < d)
    (hd' : x' < d') (h : s.Alike input input' s' x x' i j) :
    (ReversibleGrammar.manyParts? s.fragments d x = none ∧
      ReversibleGrammar.manyParts? s'.fragments d' x' = none) ∨
    ∃ items items' separators separators',
      ReversibleGrammar.manyParts? s.fragments d x = some (items, separators) ∧
      ReversibleGrammar.manyParts? s'.fragments d' x' = some (items', separators') ∧
      List.Forall₂ (PartsAlike input input' s s' x x') items items' ∧
      List.Forall₂ (PartsAlike input input' s s' x x') separators separators' := by
  induction d generalizing d' x x' i j with
  | zero => exact absurd hd (Nat.not_lt_zero x)
  | succ d ih =>
    obtain ⟨d', rfl⟩ := Nat.exists_eq_succ_of_ne_zero (Nat.ne_zero_of_lt hd')
    obtain ⟨y, y', hy, hy', hform⟩ := h.sameForm hs hs'
    unfold ReversibleGrammar.manyParts?
    rw [hy, hy']
    cases hform with
    | manyStart => exact .inr ⟨[], [], [], [], rfl, rfl, .nil, .nil⟩
    | manyItem hp hq | manySeparator hp hq =>
      obtain ⟨hlt, hlt', _, _, hbefore⟩ := hp
      rcases ih (hlt.trans_le (Nat.le_of_lt_succ hd))
        (hlt'.trans_le (Nat.le_of_lt_succ hd')) hbefore with ⟨hnone, hnone'⟩ |
        ⟨items, items', separators, separators', hparts, hparts', hitems, hseparators⟩
      · exact .inl ⟨by simp only [hnone, Option.map_none], by simp only [hnone', Option.map_none]⟩
      · replace hitems := hitems.imp fun _ _ hpart => hpart.mono hlt hlt'
        replace hseparators := hseparators.imp fun _ _ hpart => hpart.mono hlt hlt'
        refine .inr ⟨_, _, _, _, Option.map_eq_some_iff.2 ⟨_, hparts, rfl⟩,
          Option.map_eq_some_iff.2 ⟨_, hparts', rfl⟩, ?_, ?_⟩
        · first
          | exact hitems
          | exact List.rel_append hitems (.cons hq .nil)
        · first
          | exact hseparators
          | exact List.rel_append hseparators (.cons hq .nil)
    | _ => exact .inl ⟨rfl, rfl⟩

end Store

/-! ### Other tokens -/

section

variable {τ ν τ' μ : Type} [Token τ' μ]

/-- The report for other tokens. -/
def FailureReport.over (tokens : Array τ') (lookahead : Nat) (report : FailureReport τ) :
    FailureReport τ' :=
  .make report.kind report.position tokens lookahead

/-- The candidate among other tokens. -/
def Candidate.over (tokens : Array τ') (f : ν → μ) (lookahead : Nat) :
    Candidate τ ν → Candidate τ' μ
  | success stop tree => .success stop (tree.map f)
  | failure report => .failure (report.over tokens lookahead)

/-- The error among other tokens. -/
def ParseError.over (tokens : Array τ') (lookahead : Nat) : ParseError τ → ParseError τ'
  | noMatch failures => .noMatch (failures.map (.over tokens lookahead))
  | fault reason => .fault reason
  | outOfFuel => .outOfFuel

end

/-! ### Trees -/

section

variable {τ ν τ' μ : Type} [Token τ ν] [Token τ' μ] {e : τ → τ'} {f : ν → μ}
variable {g : Grammar} {tokens : Array τ} {s s' : Store}

/-- The numbers of a value and of the value made from it stand for tokens with such values. -/
theorem exists_values (hvalue : ∀ token, Token.value (e token) = f (Token.value token)) {k : Nat}
    (hk : k < tokens.size) :
    ∃ first first', tokens[(Input.ofTokens tokens).value k]? = some first ∧
      (tokens.map e)[(Input.ofTokens (tokens.map e)).value k]? = some first' ∧
      Token.value first' = f (Token.value first) := by
  obtain ⟨token, htoken⟩ : ∃ token, tokens[k]? = some token := ⟨_, Array.getElem?_eq_getElem hk⟩
  have hmade : (tokens.map e)[k]? = some (e token) := by rw [Array.getElem?_map, htoken]; rfl
  obtain ⟨first, hfirst, heq⟩ := exists_value htoken
  obtain ⟨first', hfirst', heq'⟩ := exists_value hmade
  exact ⟨first, first', hfirst, hfirst', by rw [heq', heq, hvalue]⟩

/-- Fragments that are alike are read as the same tree but for the values, or not for the same
reason. -/
theorem rebuildTo_map (hvalue : ∀ token, Token.value (e token) = f (Token.value token))
    (hs : s.Sound) (hs' : s'.Sound) {d d' : Nat} {id : PatternId} {x x' : FragmentId} {i j : Nat}
    (hd : x < d) (hd' : x' < d')
    (h : s.Alike (.ofTokens tokens) (.ofTokens (tokens.map e)) s' x x' i j) :
    rebuildTo g s'.fragments (tokens.map e) d' id x' =
      (rebuildTo g s.fragments tokens d id x).map (Tree.map f) := by
  induction d generalizing d' id x x' i j with
  | zero => exact absurd hd (Nat.not_lt_zero x)
  | succ d ih =>
    obtain ⟨d', rfl⟩ := Nat.exists_eq_succ_of_ne_zero (Nat.ne_zero_of_lt hd')
    obtain ⟨y, y', hy, hy', hform⟩ := h.sameForm hs hs'
    -- parts are read to what is left of the depth
    have hpart {child : PatternId} {p p' : FragmentId}
        (hp : s.PartsAlike (.ofTokens tokens) (.ofTokens (tokens.map e)) s' x x' p p') :
        rebuildTo g s'.fragments (tokens.map e) d' child p' =
          (rebuildTo g s.fragments tokens d child p).map (Tree.map f) := by
      obtain ⟨hlt, hlt', _, _, halike⟩ := hp
      exact ih (hlt.trans_le (Nat.le_of_lt_succ hd)) (hlt'.trans_le (Nat.le_of_lt_succ hd')) halike
    have hwrap {make : Tree ν → Tree ν} {make' : Tree μ → Tree μ}
        (hmake : ∀ t, make' (t.map f) = (make t).map f) {child : PatternId} {p p' : FragmentId}
        (hp : s.PartsAlike (.ofTokens tokens) (.ofTokens (tokens.map e)) s' x x' p p') :
        (rebuildTo g s'.fragments (tokens.map e) d' child p').map make' =
          ((rebuildTo g s.fragments tokens d child p).map make).map (Tree.map f) := by
      rw [hpart hp]
      cases rebuildTo g s.fragments tokens d child p with
      | error _ => rfl
      | ok t => exact congrArg Except.ok (hmake t)
    have hparts {child : PatternId} {parts parts' : List FragmentId}
        (hall : List.Forall₂
          (s.PartsAlike (.ofTokens tokens) (.ofTokens (tokens.map e)) s' x x') parts parts') :
        parts'.mapM (rebuildTo g s'.fragments (tokens.map e) d' child) =
          (parts.mapM (rebuildTo g s.fragments tokens d child)).map (List.map (Tree.map f)) :=
      mapM_eq_map_mapM (hall.imp fun _ _ => hpart)
    unfold rebuildTo
    cases hp : g.pattern? id with
    | none => rfl
    | some p =>
      simp only [Interner.get_eq_of_get? hy, Interner.get_eq_of_get? hy']
      cases p.kind with
      | consume terminal =>
        cases hform with
        | leaf hv =>
          obtain ⟨k, hk, rfl, rfl⟩ := hv
          obtain ⟨first, first', hfirst, hfirst', heq⟩ := exists_values hvalue hk
          simp only [hfirst, hfirst', heq]
          rfl
        | _ => rfl
      | sequence children =>
        dsimp only
        rcases h.sequenceParts? hs hs' (Nat.lt_succ_self x) (Nat.lt_succ_self x') with
          ⟨hnone, hnone'⟩ | ⟨parts, parts', hsome, hsome', hall⟩
        · rw [hnone, hnone']
          rfl
        · rw [hsome, hsome']
          dsimp only
          rw [← hall.length_eq]
          split
          · have hzip := (forall₂_zip hall children).imp fun c c' hc => by
              show rebuildTo g s'.fragments (tokens.map e) d' c'.1 c'.2 =
                (rebuildTo g s.fragments tokens d c.1 c.2).map (Tree.map f)
              rw [← hc.1]
              exact hpart hc.2
            rw [mapM_eq_map_mapM hzip]
            cases (children.zip parts).mapM fun c => rebuildTo g s.fragments tokens d c.1 c.2 with
            | error _ => rfl
            | ok trees => exact congrArg Except.ok (by simp [Tree.map, Tree.mapAll_eq_map])
          · rfl
      | choice alternatives mode names =>
        cases hform with
        | choice index hp =>
          dsimp only
          cases alternatives[index]? with
          | none => rfl
          | some alternative => exact hwrap (fun _ => rfl) hp
        | _ => rfl
      | many item separator =>
        dsimp only
        rcases h.manyParts? hs hs' (Nat.lt_succ_self x) (Nat.lt_succ_self x') with
          ⟨hnone, hnone'⟩ |
          ⟨items, items', separators, separators', hsome, hsome', hitems, hseparators⟩
        · rw [hnone, hnone']
          rfl
        · rw [hsome, hsome']
          dsimp only
          rw [hparts hitems]
          cases items.mapM (rebuildTo g s.fragments tokens d item) with
          | error _ => rfl
          | ok itemTrees =>
            cases separator with
            | some separator =>
              simp only [hparts hseparators]
              cases separators.mapM (rebuildTo g s.fragments tokens d separator) with
              | error _ => rfl
              | ok separatorTrees =>
                exact congrArg Except.ok (by simp [Tree.map, Tree.mapAll_eq_map])
            | none =>
              cases hseparators with
              | nil => exact congrArg Except.ok (by simp [Tree.map, Tree.mapAll_eq_map])
              | cons _ _ => rfl
      | option item =>
        cases hform with
        | absent => rfl
        | present hp => exact hwrap (fun _ => rfl) hp
        | _ => rfl
      | thunk rule =>
        cases hform with
        | wrapped wrapper hp =>
          cases wrapper with
          | thunk =>
            dsimp only
            cases g.ruleBody? rule with
            | none => rfl
            | some body => exact hwrap (fun _ => rfl) hp
          | _ => rfl
        | _ => rfl
      | indent child | group child | conditional child _ _ _ =>
        cases hform with
        | wrapped wrapper hp =>
          cases wrapper <;> first | rfl | exact hwrap (fun _ => rfl) hp
        | _ => rfl
      | literal _ | line _ =>
        cases hform with
        | mark marker => cases marker <;> rfl
        | _ => rfl

/-- Other tokens of the same types are recognized alike. -/
theorem recognize_map (hsame : g.SameTypes (.ofTokens tokens) (.ofTokens (tokens.map e)))
    (config : ParserConfig) (id : PatternId) :
    (recognize g config id tokens = .error .outOfFuel ∧
        recognize g config id (tokens.map e) = .error .outOfFuel ∨
      ∃ fault, recognize g config id tokens = .error (.fault fault) ∧
        recognize g config id (tokens.map e) = .error (.fault fault)) ∨
    ∃ results s s', recognize g config id tokens = .ok (results, s) ∧
      recognize g config id (tokens.map e) = .ok (results, s') ∧
      s.Paired (.ofTokens tokens) (.ofTokens (tokens.map e)) s' ∧
      ∀ r ∈ results, s.Twin (.ofTokens tokens) (.ofTokens (tokens.map e)) s' 0 r := by
  have hrun := run_paired hsame config.fuel
    (initial_paired (.ofTokens tokens) (.ofTokens (tokens.map e)) id)
  unfold recognize
  generalize run g (.ofTokens tokens) config.fuel (.initial id) = p at hrun ⊢
  generalize run g (.ofTokens (tokens.map e)) config.fuel (.initial id) = p' at hrun ⊢
  cases hrun with
  | running => exact .inl (.inl ⟨rfl, rfl⟩)
  | faulted fault => exact .inl (.inr ⟨fault, rfl, rfl⟩)
  | finished ht hresults => exact .inr ⟨_, _, _, rfl, rfl, ht.store, hresults⟩

theorem treeOf_map (hvalue : ∀ token, Token.value (e token) = f (Token.value token))
    (h : s.Paired (.ofTokens tokens) (.ofTokens (tokens.map e)) s') {x x' : FragmentId} {i j : Nat}
    (halike : s.Alike (.ofTokens tokens) (.ofTokens (tokens.map e)) s' x x' i j)
    (lookahead : Nat) (id : PatternId) :
    treeOf g s' (tokens.map e) id x' = ((treeOf g s tokens id x).map (Tree.map f)).mapError
      (.over (tokens.map e) lookahead) := by
  unfold treeOf rebuild
  rw [rebuildTo_map hvalue h.sound h.sound' (Nat.lt_succ_self x) (Nat.lt_succ_self x') halike]
  cases rebuildTo g s.fragments tokens (x + 1) id x <;> rfl

/-- With other tokens of the same types, the candidates are the same but for the values. -/
theorem candidates_map (hvalue : ∀ token, Token.value (e token) = f (Token.value token))
    (hsame : g.SameTypes (.ofTokens tokens) (.ofTokens (tokens.map e))) (config : ParserConfig)
    (id : PatternId) :
    candidates g config id (tokens.map e) =
      ((candidates g config id tokens).map
        (List.map (.over (tokens.map e) f config.lookahead))).mapError
        (.over (tokens.map e) config.lookahead) := by
  unfold candidates
  rcases recognize_map hsame config id with (⟨h, h'⟩ | ⟨fault, h, h'⟩) |
    ⟨results, s, s', h, h', hpaired, htwins⟩
  · rw [h, h']
    rfl
  · rw [h, h']
    rfl
  · rw [h, h']
    refine mapM_eq_mapM (List.forall₂_same.2 fun r hr => ?_)
    unfold candidateOf
    rcases (htwins r hr).cases with ⟨x, x', stop, hm, hm', halike⟩ | ⟨k, stop, map, hm, hm', -⟩
    · simp only [hm.result_eq, hm'.result_eq, treeOf_map hvalue hpaired halike config.lookahead id]
      cases treeOf g s tokens id x <;> rfl
    · simp only [hm, hm', Store.failureKind, hpaired.failures]
      rfl

/-! ### Parses -/

/-- The matches of the whole input are alike, one by one. -/
theorem completeFragments_paired
    (h : s.Paired (.ofTokens tokens) (.ofTokens (tokens.map e)) s') {results : List ResultId}
    (htwins : ∀ r ∈ results, s.Twin (.ofTokens tokens) (.ofTokens (tokens.map e)) s' 0 r) :
    List.Forall₂ (fun x x' => s.Alike (.ofTokens tokens) (.ofTokens (tokens.map e)) s' x x' 0
        tokens.size)
      (completeFragments s tokens.size results) (completeFragments s' tokens.size results) := by
  have hsize : (Input.ofTokens tokens).size = (Input.ofTokens (tokens.map e)).size :=
    Array.size_map.symm
  refine ResultSet.OneToOne.forall₂_ofList (fun hx hy => ⟨?_, ?_⟩) ?_
  · rintro rfl
    exact (hx.unique h.sound' hy).2
  · rintro rfl
    exact ((hx.symm hsize).unique h.sound (hy.symm hsize)).2
  · induction results with
    | nil => exact .nil
    | cons r results ih =>
      have hrest := ih fun r hr => htwins r (List.mem_cons_of_mem _ hr)
      rw [List.filterMap_cons, List.filterMap_cons]
      rcases (htwins r List.mem_cons_self).cases with ⟨x, x', stop, hm, hm', halike⟩ |
        ⟨k, stop, map, hm, hm', -⟩
      · simp only [hm.result_eq, hm'.result_eq]
        by_cases hstop : stop = tokens.size
        · simp only [hstop, if_true]
          exact .cons (hstop ▸ halike) hrest
        · simp only [hstop, if_false]
          exact hrest
      · simp only [hm, hm']
        exact hrest

theorem failuresOf_paired
    (h : s.Paired (.ofTokens tokens) (.ofTokens (tokens.map e)) s') {results : List ResultId}
    (htwins : ∀ r ∈ results, s.Twin (.ofTokens tokens) (.ofTokens (tokens.map e)) s' 0 r)
    (size : Nat) : failuresOf s size results = failuresOf s' size results := by
  unfold failuresOf
  refine congrArg (List.foldl _ []) (List.filterMap_congr fun r hr => ?_)
  rcases (htwins r hr).cases with ⟨x, x', stop, hm, hm', -⟩ | ⟨k, stop, map, hm, hm', -⟩
  · simp only [hm.result_eq, hm'.result_eq]
  · simp only [hm, hm', Store.failureKind, h.failures]

/-- With other tokens of the same types, the parses are the same but for the values. -/
theorem parseUpTo_map (hvalue : ∀ token, Token.value (e token) = f (Token.value token))
    (hsame : g.SameTypes (.ofTokens tokens) (.ofTokens (tokens.map e))) (config : ParserConfig)
    (limit : Option Nat) (id : PatternId) :
    parseUpTo g config limit id (tokens.map e) =
      ((parseUpTo g config limit id tokens).map (List.map (Tree.map f))).mapError
        (.over (tokens.map e) config.lookahead) := by
  unfold parseUpTo
  rcases recognize_map hsame config id with (⟨h, h'⟩ | ⟨fault, h, h'⟩) |
    ⟨results, s, s', h, h', hpaired, htwins⟩
  · rw [h, h']
    rfl
  · rw [h, h']
    rfl
  · rw [h, h', Array.size_map]
    have hfailures := failuresOf_paired hpaired htwins tokens.size
    have htrees := (completeFragments_paired hpaired htwins).imp fun x x' halike =>
      treeOf_map (g := g) hvalue hpaired halike config.lookahead id
    simp only [bind, Except.bind, ← hfailures]
    generalize completeFragments s tokens.size results = xs at htrees ⊢
    generalize completeFragments s' tokens.size results = xs' at htrees ⊢
    have hall := mapM_eq_mapM htrees
    have hchosen (n : Nat) := mapM_eq_mapM (List.forall₂_take n htrees)
    cases htrees with
    | nil =>
      simp only [List.isEmpty_nil, if_true]
      simp [Except.map, Except.mapError, ParseError.over, FailureReport.over, FailureReport.make]
    | cons hx hrest =>
      simp only [List.isEmpty_cons, Bool.false_eq_true, if_false]
      cases limit with
      | none => exact hall
      | some n => exact hchosen n

/-- With other tokens of the same types, the first parse is the same but for the values. -/
theorem parseOne_map (hvalue : ∀ token, Token.value (e token) = f (Token.value token))
    (hsame : g.SameTypes (.ofTokens tokens) (.ofTokens (tokens.map e))) (config : ParserConfig)
    (id : PatternId) :
    parseOne g config id (tokens.map e) =
      ((parseOne g config id tokens).map (Tree.map f)).mapError
        (.over (tokens.map e) config.lookahead) := by
  unfold parseOne
  rw [parseUpTo_map hvalue hsame]
  cases parseUpTo g config (some 1) id tokens with
  | error _ => rfl
  | ok trees => cases trees <;> rfl

end

/-! ### Two token lists -/

section

variable {τ ν τ' ν' : Type} [Token τ ν] [Token τ' ν']

/-- Two tokens side by side, of the types of the first one. -/
instance : Token (τ × τ') (ν × ν') where
  is pair terminal := Token.is pair.1 terminal
  value pair := (Token.value pair.1, Token.value pair.2)
  describe pair := Token.describe pair.1
  decEq :=
    let _ : DecidableEq ν := Token.decEq τ
    let _ : DecidableEq ν' := Token.decEq τ'
    inferInstance

/-- Two candidates for two token lists are both matches that end at the same position, with trees
that differ in the values only, which are those of the tokens with the same number; or both
failures of the same kind at the same position. -/
inductive Candidate.Agrees (a : Array τ) (b : Array τ') (lookahead : Nat) :
    Candidate τ ν → Candidate τ' ν' → Prop
  | success (stop : Nat) (both : Tree (ν × ν'))
      (hvalues : both.values = ((a.toList.zip b.toList).take stop).map Token.value) :
      Agrees a b lookahead (.success stop (both.map Prod.fst)) (.success stop (both.map Prod.snd))
  | failure (kind : FailureKind) (position : Nat) :
      Agrees a b lookahead (.failure (.make kind position a lookahead))
        (.failure (.make kind position b lookahead))

variable {g : Grammar}

/-- Tokens made from others have the types that a grammar asks for if they have those of the
others. -/
theorem Grammar.sameTypes_map {e : τ → τ'} {tokens : Array τ}
    (his : ∀ terminal, g.Consumes terminal → ∀ token ∈ tokens,
      Token.is (e token) terminal = Token.is token terminal) :
    g.SameTypes (.ofTokens tokens) (.ofTokens (tokens.map e)) where
  size := Array.size_map.symm
  is terminal hterminal i hi := by
    obtain ⟨token, htoken⟩ : ∃ token, tokens[i]? = some token := ⟨_, Array.getElem?_eq_getElem hi⟩
    simp only [Input.ofTokens, Array.getElem?_map, htoken, Option.map_some]
    exact (his terminal hterminal token (Array.mem_of_getElem? htoken)).symm

/-- Detached tokens have the types of the tokens. -/
theorem Grammar.sameTypes_detach (g : Grammar) (tokens : Array LexToken) :
    g.SameTypes (.ofTokens tokens) (.ofTokens (tokens.map LexToken.detach)) :=
  g.sameTypes_map fun _ _ _ _ => rfl

/-- Candidates for tokens side by side are candidates for each of the lists. -/
theorem candidates_zip {a : Array τ} {b : Array τ'} (hsize : a.size = b.size)
    (hsame : ∀ terminal, g.Consumes terminal → ∀ (i : Nat) (x : τ) (y : τ'), a[i]? = some x →
      b[i]? = some y → Token.is x terminal = Token.is y terminal)
    (config : ParserConfig) (id : PatternId) :
    candidates g config id a = ((candidates g config id (a.zip b)).map
        (List.map (.over a Prod.fst config.lookahead))).mapError (.over a config.lookahead) ∧
      candidates g config id b = ((candidates g config id (a.zip b)).map
        (List.map (.over b Prod.snd config.lookahead))).mapError (.over b config.lookahead) := by
  have hfst : (a.zip b).map Prod.fst = a := by
    rw [← Array.toList_inj, Array.toList_map, Array.toList_zip]
    exact List.map_fst_zip hsize.le
  have hsnd : (a.zip b).map Prod.snd = b := by
    rw [← Array.toList_inj, Array.toList_map, Array.toList_zip]
    exact List.map_snd_zip hsize.ge
  have htypes : g.SameTypes (.ofTokens (a.zip b)) (.ofTokens ((a.zip b).map Prod.snd)) := by
    refine g.sameTypes_map fun terminal hterminal pair hpair => ?_
    obtain ⟨i, hi, rfl⟩ := Array.mem_iff_getElem.1 hpair
    have hlt : i < a.size ∧ i < b.size := by simpa using hi
    have hfirst : a[i]? = some (a.zip b)[i].1 := by
      rw [Array.getElem_zip, Array.getElem?_eq_getElem hlt.1]
    have hsecond : b[i]? = some (a.zip b)[i].2 := by
      rw [Array.getElem_zip, Array.getElem?_eq_getElem hlt.2]
    exact (hsame terminal hterminal i _ _ hfirst hsecond).symm
  have hkept : g.SameTypes (.ofTokens (a.zip b)) (.ofTokens ((a.zip b).map Prod.fst)) :=
    g.sameTypes_map fun _ _ _ _ => rfl
  have hleft := candidates_map (f := Prod.fst) (fun _ => rfl) hkept config id
  have hright := candidates_map (f := Prod.snd) (fun _ => rfl) htypes config id
  rw [hfst] at hleft
  rw [hsnd] at hright
  exact ⟨hleft, hright⟩

/-- There are no candidates only if the run is given up. -/
theorem error_of_candidates {config : ParserConfig} {id : PatternId} {tokens : Array τ}
    {error : ParseError τ} (h : candidates g config id tokens = .error error) :
    (∃ fault, error = .fault fault) ∨
      error = .outOfFuel ∧ recognize g config id tokens = .error .outOfFuel := by
  unfold candidates at h
  cases hrecognize : recognize g config id tokens with
  | error reason =>
    rw [hrecognize] at h
    cases h
    unfold recognize at hrecognize
    split at hrecognize
    · cases hrecognize
      exact .inr ⟨rfl, rfl⟩
    · cases hrecognize
    · cases hrecognize
      exact .inl ⟨_, rfl⟩
  | ok found =>
    rw [hrecognize] at h
    obtain ⟨r, -, hr⟩ := exists_of_mapM_eq_error h
    unfold candidateOf treeOf at hr
    split at hr
    · rename_i f _
      cases hread : rebuild g found.2.fragments tokens id f with
      | error fault =>
        rw [hread] at hr
        cases hr
        exact .inl ⟨fault, rfl⟩
      | ok tree =>
        rw [hread] at hr
        cases hr
    · cases hr

/-- A candidate for tokens side by side is two candidates that agree. -/
theorem agrees_of_mem (hg : g.Closed) {config : ParserConfig} {id : PatternId} (hid : id < g.size)
    {a : Array τ} {b : Array τ'} {found : List (Candidate (τ × τ') (ν × ν'))}
    (h : candidates g config id (a.zip b) = .ok found) {c : Candidate (τ × τ') (ν × ν')}
    (hc : c ∈ found) :
    Candidate.Agrees a b config.lookahead (c.over a Prod.fst config.lookahead)
      (c.over b Prod.snd config.lookahead) := by
  obtain ⟨⟨results, s⟩, hrecognize, hfound⟩ := bind_eq_ok_iff.1 h
  obtain ⟨r, hr, hcandidate⟩ := exists_of_forall₂_of_mem (mapM_eq_ok_iff.1 hfound) hc
  unfold candidateOf at hcandidate
  split at hcandidate
  · rename_i f hf
    obtain ⟨tree, htree, rfl⟩ := map_eq_ok_iff.1 hcandidate
    refine .success _ tree ?_
    rw [values_of_recognize hg hid hrecognize hr hf htree, Array.toList_zip]
  · cases hcandidate
    exact .failure _ _

/-- Parsing sees the types of tokens only.  Among two token lists with the same types, whatever
values are equal in each of them, either both runs are given up for the same reason, or their
candidates agree one by one, and enough fuel suffices for both.  Without their places, tokens have
the same candidates and the same parses, without places. -/
theorem candidates_agree (hg : g.Built) (hthunk : g.NoThunkCycle) {id : PatternId}
    (hid : id < g.size) :
    (∀ {τ ν τ' ν' : Type} [Token τ ν] [Token τ' ν'] (a : Array τ) (b : Array τ'),
      a.size = b.size →
      (∀ terminal, g.Consumes terminal → ∀ (i : Nat) (x : τ) (y : τ'), a[i]? = some x →
        b[i]? = some y → Token.is x terminal = Token.is y terminal) →
      ∃ fuel, ∀ config : ParserConfig,
        (∃ fault, candidates g config id a = .error (.fault fault) ∧
          candidates g config id b = .error (.fault fault)) ∨
        (∃ found found', candidates g config id a = .ok found ∧
          candidates g config id b = .ok found' ∧
          List.Forall₂ (Candidate.Agrees a b config.lookahead) found found') ∨
        config.fuel < fuel ∧ candidates g config id a = .error .outOfFuel ∧
          candidates g config id b = .error .outOfFuel) ∧
    ∀ (tokens : Array LexToken) (config : ParserConfig),
      let detached := tokens.map LexToken.detach
      candidates g config id detached = ((candidates g config id tokens).map
        (List.map (.over detached LexToken.detach config.lookahead))).mapError
        (.over detached config.lookahead) ∧
      ∀ limit, parseUpTo g config limit id detached = ((parseUpTo g config limit id tokens).map
        (List.map (Tree.map LexToken.detach))).mapError (.over detached config.lookahead) := by
  constructor
  · intro τ ν τ' ν' _ _ a b hsize hsame
    obtain ⟨fuel, hfuel⟩ := exists_recognize_fuel hg.closed hthunk hid (a.zip b)
    refine ⟨fuel, fun config => ?_⟩
    obtain ⟨ha, hb⟩ := candidates_zip hsize hsame config id
    rw [ha, hb]
    cases hfound : candidates g config id (a.zip b) with
    | error error =>
      rcases error_of_candidates hfound with ⟨fault, rfl⟩ | ⟨rfl, hout⟩
      · exact .inl ⟨fault, rfl, rfl⟩
      · exact .inr (.inr ⟨Nat.lt_of_not_le fun hle => hfuel config hle hout, rfl, rfl⟩)
    | ok found =>
      refine .inr (.inl ⟨_, _, rfl, rfl, ?_⟩)
      rw [List.forall₂_map_left_iff, List.forall₂_map_right_iff, List.forall₂_same]
      exact fun c hc => agrees_of_mem hg.closed hid hfound hc
  · intro tokens config
    have hsame := g.sameTypes_detach tokens
    exact ⟨candidates_map (f := LexToken.detach) (fun _ => rfl) hsame config id,
      fun limit => parseUpTo_map (f := LexToken.detach) (fun _ => rfl) hsame config limit id⟩

end

/-- A sum of three operands has two derivations, with operands that are all equal and with operands
that are not. -/
theorem candidates_agree_sums :
    let a : Array String := #["n", "+", "n", "+", "n"]
    let b : Array LexToken := #[.valued "n" "1", .bare "+", .valued "n" "2", .bare "+",
      .valued "n" "1"]
    ∃ found found', candidates (.sums 0 "+" "n") ⟨3, 1000⟩ 5 a = .ok found ∧
      candidates (.sums 0 "+" "n") ⟨3, 1000⟩ 5 b = .ok found' ∧
      List.Forall₂ (Candidate.Agrees a b 3) found found' := by
  intro a b
  have hkinds : a = b.map LexToken.kind := by cbv
  have hsame : ∀ terminal, (Grammar.sums 0 "+" "n").Consumes terminal →
      ∀ (i : Nat) (x : String) (y : LexToken), a[i]? = some x → b[i]? = some y →
        Token.is x terminal = Token.is y terminal := by
    intro terminal _ i x y hx hy
    rw [hkinds, Array.getElem?_map, hy] at hx
    cases hx
    rfl
  obtain ⟨fuel, h⟩ := (candidates_agree (Grammar.built_sums_expression "+" "n")
    (Grammar.noThunkCycle_sums 0 "+" "n") (show 5 < _ by decide)).1 a b rfl hsame
  have hparses : (candidates (.sums 0 "+" "n") ⟨3, 1000⟩ 5 a).toOption.isSome = true := by
    decide +kernel
  rcases h ⟨3, 1000⟩ with ⟨fault, herror, -⟩ | hagree | ⟨-, herror, -⟩
  · rw [herror] at hparses
    cases hparses
  · exact hagree
  · rw [herror] at hparses
    cases hparses

end ReversibleGrammar
