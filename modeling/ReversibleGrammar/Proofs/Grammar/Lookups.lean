/-
What is looked up in a grammar is there.

The parser, extraction, injection and printing find patterns, rules and labels by number.  In a
closed grammar, whatever starts at one of its patterns keeps to numbers in range, also where
patterns share a label and a match is read along a pattern that it was not made for.

* `Fault.isLookup`, `ParseError.isLookup` — the errors of a look-up that fails;
* `Tree.Resolves` — everything that the nodes of a tree refer to is there;
* `isLookup_of_rebuildTo`, `resolves_of_rebuildTo` — matches are read along patterns in range;
* `fits_of_injectTo` — injected trees follow the grammar;
* `Grammar.ofCalls_serves` — the grammars that a builder accepts, and which calls it accepts.
-/
import ReversibleGrammar.Proofs.Grammar.Accepted
import ReversibleGrammar.Proofs.Grammar.Fitting
import ReversibleGrammar.Proofs.Recognizer.Leaves
import ReversibleGrammar.Proofs.Shaping.Descent

namespace ReversibleGrammar

/-- A look-up in the grammar failed. -/
def Fault.isLookup : Fault → Bool
  | .unknownPattern _ | .unknownRule _ => true
  | _ => false

/-- A look-up in the grammar failed. -/
def ParseError.isLookup {τ : Type} : ParseError τ → Bool
  | .fault reason => reason.isLookup
  | _ => false

/-- At every node, the pattern is the one of its number, its label has a text, its rule a name and
a body, and the chosen alternative a name if alternatives have names. -/
inductive Tree.Resolves {ν : Type} (g : Grammar) : Tree ν → Prop
  | node {t : Tree ν} (pattern : g.pattern? t.pattern.id = some t.pattern)
      (label : ∀ l, t.pattern.label = some l → ∃ text, g.labelText? l = some text)
      (rule : ∀ r, t.pattern.kind = .thunk r →
        ∃ name body, g.ruleName? r = some name ∧ g.ruleBody? r = some body)
      (typeName : ∀ p index u, t = .choice p index u → ∀ alternatives mode names,
        p.kind = .choice alternatives mode (some names) → ∃ name, names[index]? = some name)
      (children : ∀ u ∈ t.children, u.Resolves g) : Resolves g t

section

variable {ν : Type} {g : Grammar}

namespace Grammar.Closed

theorem exists_pattern? {id : PatternId} (hid : id < g.size) : ∃ p, g.pattern? id = some p :=
  ⟨_, Array.getElem?_eq_getElem hid⟩

theorem exists_ruleBody? (hg : g.Closed) {id : PatternId} {p : Pattern}
    (hp : g.pattern? id = some p) {rule : RuleId} (hkind : p.kind = .thunk rule) :
    ∃ name body, g.ruleName? rule = some name ∧ g.ruleBody? rule = some body ∧ body < g.size := by
  have hrule := Array.getElem?_eq_getElem ((hg.closedAt id p hp).rule_lt rule hkind)
  exact ⟨_, _, by rw [ruleName?, hrule]; rfl, by rw [ruleBody?, hrule]; rfl,
    hg.body_lt rule _ hrule⟩

/-- A node resolves if its children do. -/
theorem resolves (hg : g.Closed) {t : Tree ν} {id : PatternId}
    (hp : g.pattern? id = some t.pattern)
    (hchoice : ∀ p index u, t = .choice p index u → ∀ alternatives mode names,
      p.kind = .choice alternatives mode names → index < alternatives.length)
    (hchildren : ∀ u ∈ t.children, u.Resolves g) : t.Resolves g := by
  have hat := hg.closedAt id _ hp
  refine .node ?_ (fun l hl => ?_) (fun r hr => ?_) (fun p index u ht alternatives mode names hk => ?_)
    hchildren
  · rw [hg.id_eq id _ hp]
    exact hp
  · exact ⟨_, Array.getElem?_eq_getElem (hat.label_lt l hl)⟩
  · obtain ⟨name, body, hname, hbody, -⟩ := hg.exists_ruleBody? hp hr
    exact ⟨name, body, hname, hbody⟩
  · subst ht
    have hlength := hat.typeNames_length alternatives mode names hk
    exact ⟨_, List.getElem?_eq_getElem (hlength ▸ hchoice p index u rfl alternatives mode _ hk)⟩

end Grammar.Closed

/-! ### Parsing -/

section

variable {τ : Type} [Token τ ν] {tokens : Array τ} {s : Store}

/-- Reading a match along a pattern in range never looks up what is not there. -/
theorem isLookup_of_rebuildTo (hg : g.Closed) {d : Nat} {id : PatternId} (hid : id < g.size)
    {f : FragmentId} {fault : Fault}
    (h : rebuildTo g s.fragments tokens d id f = (.error fault : Except Fault (Tree ν))) :
    fault.isLookup = false := by
  induction d generalizing id f fault with
  | zero => exact Except.error.inj h ▸ rfl
  | succ d ih =>
    obtain ⟨p, hp⟩ := Grammar.Closed.exists_pattern? hid
    -- a part is read along a child, which is in range
    have hchild {child : PatternId} (hmem : child ∈ p.kind.children) {q : FragmentId}
        (h : rebuildTo g s.fragments tokens d child q = (.error fault : Except Fault (Tree ν))) :
        fault.isLookup = false :=
      ih ((hg.closedAt id p hp).children_lt child hmem) h
    have hother {fault' : Fault} (hlookup : fault'.isLookup = false)
        (h : (.error fault' : Except Fault (Tree ν)) = .error fault) : fault.isLookup = false :=
      Except.error.inj h ▸ hlookup
    unfold rebuildTo at h
    simp only [hp] at h
    split at h
    · split at h
      · cases h
      · exact hother rfl h
    · rename_i children _ hkind
      split at h
      · split at h
        · obtain ⟨x, hx, h⟩ := exists_of_mapM_eq_error (bind_pure_eq_error_iff.1 h)
          exact hchild (by rw [hkind]; exact (List.of_mem_zip hx).1) h
        · exact hother rfl h
      · exact hother rfl h
    · rename_i hkind _
      split at h
      · rename_i halternative
        exact hchild (by rw [hkind]; exact List.mem_of_getElem? halternative)
          (map_eq_error_iff.1 h)
      · exact hother rfl h
    · rename_i item separator _ hkind
      split at h
      · rcases bind_eq_error_iff.1 h with h | ⟨items, -, h⟩
        · obtain ⟨q, -, h⟩ := exists_of_mapM_eq_error h
          exact hchild (by rw [hkind]; exact List.mem_cons_self) h
        · split at h
          · obtain ⟨q, -, h⟩ := exists_of_mapM_eq_error (bind_pure_eq_error_iff.1 h)
            exact hchild (by rw [hkind]; exact List.mem_cons_of_mem _ List.mem_cons_self) h
          · split at h
            · cases h
            · exact hother rfl h
      · exact hother rfl h
    · cases h
    · rename_i hkind _
      exact hchild (by rw [hkind]; exact List.mem_cons_self) (map_eq_error_iff.1 h)
    · rename_i hkind _
      obtain ⟨name, body, -, hbody, hlt⟩ := hg.exists_ruleBody? hp hkind
      rw [hbody] at h
      exact ih hlt (map_eq_error_iff.1 h)
    · rename_i hkind _
      exact hchild (by rw [hkind]; exact List.mem_cons_self) (map_eq_error_iff.1 h)
    · rename_i hkind _
      exact hchild (by rw [hkind]; exact List.mem_cons_self) (map_eq_error_iff.1 h)
    · rename_i hkind _
      exact hchild (by rw [hkind]; exact List.mem_cons_self) (map_eq_error_iff.1 h)
    · cases h
    · cases h
    · exact hother rfl h

/-- The tree of a match refers to nothing that is not there. -/
theorem resolves_of_rebuildTo (hg : g.Closed) {d : Nat} {id : PatternId} {f : FragmentId}
    {tree : Tree ν} (h : rebuildTo g s.fragments tokens d id f = .ok tree) : tree.Resolves g := by
  induction d generalizing id f tree with
  | zero => cases h
  | succ d ih =>
    obtain ⟨p, hp, hmade⟩ := rebuilds_of_rebuildTo h
    cases hmade with
    | leaf | absent | mark => exact hg.resolves hp (by simp) (List.forall_mem_nil _)
    | present _ _ hinner | wrapped _ _ hinner =>
      exact hg.resolves hp (by simp) (List.forall_mem_singleton.2 (ih hinner))
    | choice hkind halternative _ hinner =>
      refine hg.resolves hp (fun p' index' u ht alternatives mode names hkind' => ?_)
        (List.forall_mem_singleton.2 (ih hinner))
      cases ht
      cases hkind.symm.trans hkind'
      exact (List.getElem?_eq_some_iff.1 halternative).1
    | sequence _ _ _ htrees =>
      refine hg.resolves hp (by simp) fun u hu => ?_
      obtain ⟨x, -, hx⟩ := exists_of_forall₂_of_mem htrees hu
      exact ih hx
    | many _ _ hitems hseparators =>
      refine hg.resolves hp (by simp) (List.forall_mem_append.2 ⟨fun u hu => ?_, fun u hu => ?_⟩)
      · obtain ⟨q, -, hq⟩ := exists_of_forall₂_of_mem hitems hu
        exact ih hq
      · obtain ⟨q, -, s', -, hq⟩ := exists_of_forall₂_of_mem hseparators hu
        exact ih hq

theorem isLookup_of_recognize (hg : g.Closed) {id : PatternId} (hid : id < g.size)
    {config : ParserConfig} {error : ParseError τ}
    (h : recognize g config id tokens = .error error) : error.isLookup = false := by
  rcases recognize_cases hg config hid tokens with ⟨results, u, -, heq⟩ | ⟨site, -, heq⟩ | heq
  · cases heq.symm.trans h
  · cases heq.symm.trans h
    rfl
  · cases heq.symm.trans h
    rfl

theorem isLookup_of_treeOf (hg : g.Closed) {id : PatternId} (hid : id < g.size)
    {f : FragmentId} {error : ParseError τ}
    (h : treeOf g s tokens id f = (.error error : Except (ParseError τ) (Tree ν))) :
    error.isLookup = false := by
  unfold treeOf rebuild at h
  cases hread : rebuildTo g s.fragments tokens (f + 1) id f with
  | ok tree =>
    rw [hread] at h
    cases h
  | error fault =>
    rw [hread] at h
    cases h
    exact isLookup_of_rebuildTo hg hid hread

theorem resolves_of_treeOf (hg : g.Closed) {id : PatternId} {f : FragmentId} {tree : Tree ν}
    (h : treeOf g s tokens id f = .ok tree) : tree.Resolves g :=
  resolves_of_rebuildTo hg (mapError_eq_ok_iff.1 h)

theorem isLookup_of_candidates (hg : g.Closed) {id : PatternId} (hid : id < g.size)
    {config : ParserConfig} {error : ParseError τ}
    (h : candidates g config id tokens = (.error error : Except _ (List (Candidate τ ν)))) :
    error.isLookup = false := by
  unfold candidates at h
  rcases bind_eq_error_iff.1 h with h | ⟨⟨results, store⟩, -, h⟩
  · exact isLookup_of_recognize hg hid h
  · obtain ⟨result, -, h⟩ := exists_of_mapM_eq_error h
    unfold candidateOf at h
    split at h
    · exact isLookup_of_treeOf hg hid (map_eq_error_iff.1 h)
    · cases h

theorem resolves_of_candidates (hg : g.Closed) {id : PatternId} {config : ParserConfig}
    {cs : List (Candidate τ ν)} (h : candidates g config id tokens = .ok cs) {stop : Nat}
    {tree : Tree ν} (hmem : .success stop tree ∈ cs) : tree.Resolves g := by
  obtain ⟨⟨results, store⟩, -, h⟩ := bind_eq_ok_iff.1 h
  obtain ⟨result, -, h⟩ := exists_of_forall₂_of_mem (mapM_eq_ok_iff.1 h) hmem
  unfold candidateOf at h
  split at h
  · obtain ⟨tree, htree, hmake⟩ := map_eq_ok_iff.1 h
    cases hmake
    exact resolves_of_treeOf hg htree
  · cases h

theorem isLookup_of_parseUpTo (hg : g.Closed) {id : PatternId} (hid : id < g.size)
    {config : ParserConfig} {limit : Option Nat} {error : ParseError τ}
    (h : parseUpTo g config limit id tokens = (.error error : Except _ (List (Tree ν)))) :
    error.isLookup = false := by
  unfold parseUpTo at h
  rcases bind_eq_error_iff.1 h with h | ⟨⟨results, store⟩, -, h⟩
  · exact isLookup_of_recognize hg hid h
  · dsimp only at h
    split at h
    · cases h
      rfl
    · obtain ⟨f, -, h⟩ := exists_of_mapM_eq_error h
      exact isLookup_of_treeOf hg hid h

theorem resolves_of_parseUpTo (hg : g.Closed) {id : PatternId} {config : ParserConfig}
    {limit : Option Nat} {trees : List (Tree ν)}
    (h : parseUpTo g config limit id tokens = .ok trees) {tree : Tree ν} (hmem : tree ∈ trees) :
    tree.Resolves g := by
  obtain ⟨⟨results, store⟩, -, h⟩ := bind_eq_ok_iff.1 h
  dsimp only at h
  split at h
  · cases h
  · obtain ⟨f, -, h⟩ := exists_of_forall₂_of_mem (mapM_eq_ok_iff.1 h) hmem
    exact resolves_of_treeOf hg h

theorem isLookup_of_parseOne (hg : g.Closed) {id : PatternId} (hid : id < g.size)
    {config : ParserConfig} {error : ParseError τ}
    (h : parseOne g config id tokens = (.error error : Except _ (Tree ν))) :
    error.isLookup = false := by
  unfold parseOne at h
  rcases bind_eq_error_iff.1 h with h | ⟨trees, -, h⟩
  · exact isLookup_of_parseUpTo hg hid h
  · split at h
    · cases h
    · cases h
      rfl

theorem resolves_of_parseOne (hg : g.Closed) {id : PatternId} {config : ParserConfig}
    {tree : Tree ν} (h : parseOne g config id tokens = .ok tree) : tree.Resolves g := by
  obtain ⟨trees, htrees, h⟩ := bind_eq_ok_iff.1 h
  split at h
  · cases h
    exact resolves_of_parseUpTo hg htrees List.mem_cons_self
  · cases h

end

/-! ### Injection -/

/-- An error of an injection is one about the shape, or the fuel did not last. -/
theorem isInternal_of_injectTo (hg : g.Closed) {codec : ShapeCodec ν} (hcodec : codec.BlamesShapes)
    {depth : Nat} {id : PatternId} (hid : id < g.size) {shape : Shape} {e : ShapeError}
    (h : injectTo g codec depth id shape = .error e) : e.isInternal = false ∨ e = .outOfFuel := by
  induction depth generalizing id shape with
  | zero => exact Or.inr (Except.error.inj h).symm
  | succ depth ih =>
    rcases hg.injectTo_error hcodec hid h with he | ⟨child, value, hcall, he⟩
    · exact Or.inl he
    · exact ih (hg.lt_size_of_injectCall hcall) he

/-- The nodes of an injected tree are those that its patterns call for. -/
theorem fits_of_injectTo {codec : ShapeCodec ν} {depth : Nat} {id : PatternId} {shape : Shape}
    {t : Tree ν} (h : injectTo g codec depth id shape = .ok t) : t.Fits g id := by
  induction depth generalizing id shape t with
  | zero => cases h
  | succ depth ih =>
    cases hp : g.pattern? id with
    | none => simp only [injectTo, hp, reduceCtorEq] at h
    | some p =>
      have hwrapped {wrapper : Wrapper} {child : PatternId} {value : Shape}
          (hkind : p.kind.wrapped? g = some (wrapper, child))
          (h : (injectTo g codec depth child value >>= fun u => pure (.wrapped p u)) = .ok t) :
          t.Fits g id := by
        obtain ⟨u, hu, hmake⟩ := bind_eq_ok_iff.1 h
        cases hmake
        exact ⟨hp, wrapper, child, hkind, ih hu⟩
      cases hkind : p.kind with
      | consume terminal =>
        cases hname : p.name with
        | none =>
          simp only [injectTo, hp, hkind, hname, Except.ok.injEq] at h
          exact h ▸ ⟨hp, terminal, hkind⟩
        | some name =>
          simp only [injectTo, hp, hkind, hname] at h
          obtain ⟨value, -, h⟩ := bind_eq_ok_iff.1 h
          obtain ⟨v, -, hmake⟩ := bind_eq_ok_iff.1 h
          cases hmake
          exact ⟨hp, terminal, hkind⟩
      | literal text | line kind =>
        simp only [injectTo, hp, hkind, Except.ok.injEq] at h
        exact h ▸ ⟨hp, _, by rw [hkind]; rfl⟩
      | indent child | group child | conditional child =>
        simp only [injectTo, hp, hkind] at h
        exact hwrapped (by rw [hkind]; rfl) h
      | thunk rule =>
        simp only [injectTo, hp, hkind] at h
        obtain ⟨value, -, h⟩ := bind_eq_ok_iff.1 h
        split at h
        · rename_i body hbody
          have hwrapper : p.kind.wrapped? g = some (.thunk, body) := by
            simp [hkind, PatternKind.wrapped?, hbody]
          exact hwrapped hwrapper h
        · cases h
      | sequence children =>
        simp only [injectTo, hp, hkind] at h
        obtain ⟨value, -, h⟩ := bind_eq_ok_iff.1 h
        obtain ⟨ts, hts, hmake⟩ := bind_eq_ok_iff.1 h
        cases hmake
        exact Tree.fits_sequence_iff.2 ⟨hp, children, hkind,
          ((mapM_eq_ok_iff.1 hts).imp fun _ _ hu => ih hu).flip⟩
      | choice alternatives mode typeNames =>
        cases hname : p.name with
        | none => simp only [injectTo, hp, hkind, hname, reduceCtorEq] at h
        | some name =>
          simp only [injectTo, hp, hkind, hname] at h
          obtain ⟨value, -, h⟩ := bind_eq_ok_iff.1 h
          obtain ⟨tagged, -, h⟩ := bind_eq_ok_iff.1 h
          split at h
          · cases h
          split at h
          · cases h
          · rename_i alternative halternative
            obtain ⟨u, hu, hmake⟩ := bind_eq_ok_iff.1 h
            cases hmake
            exact ⟨hp, alternatives, mode, typeNames, alternative, hkind, halternative, ih hu⟩
      | many item separator =>
        cases hname : p.name with
        | none => simp only [injectTo, hp, hkind, hname, reduceCtorEq] at h
        | some name =>
          simp only [injectTo, hp, hkind, hname] at h
          obtain ⟨value, -, h⟩ := bind_eq_ok_iff.1 h
          split at h
          · obtain ⟨items, hitems, h⟩ := bind_eq_ok_iff.1 h
            -- each part is injected along the item or the separator
            have hfits {α : Type} {id : PatternId} (shapes : α → Shape) {xs : List α}
                {ts : List (Tree ν)}
                (h : xs.mapM (fun x => injectTo g codec depth id (shapes x)) = .ok ts) :
                ts.length = xs.length ∧ ∀ u ∈ ts, u.Fits g id := by
              have hall := mapM_eq_ok_iff.1 h
              refine ⟨hall.length_eq.symm, fun u hu => ?_⟩
              obtain ⟨x, -, hx⟩ := exists_of_forall₂_of_mem hall hu
              exact ih hx
            cases separator with
            | none =>
              cases h
              exact Tree.fits_many_iff.2 ⟨hp, item, none, hkind,
                (hfits (fun shape => shape) hitems).2, rfl, List.forall_mem_nil _⟩
            | some separator =>
              obtain ⟨separators, hseparators, hmake⟩ := bind_eq_ok_iff.1 h
              cases hmake
              obtain ⟨hlength, hall⟩ := hfits (fun _ => .object []) hseparators
              exact Tree.fits_many_iff.2 ⟨hp, item, some separator, hkind,
                (hfits (fun shape => shape) hitems).2, by simpa using hlength,
                fun u hu => ⟨separator, rfl, hall u hu⟩⟩
          · cases h
      | option item =>
        cases hname : p.name with
        | none => simp only [injectTo, hp, hkind, hname, reduceCtorEq] at h
        | some name =>
          simp only [injectTo, hp, hkind, hname] at h
          split at h
          · cases h
          split at h
          · cases h
            exact ⟨hp, item, hkind⟩
          · obtain ⟨u, hu, hmake⟩ := bind_eq_ok_iff.1 h
            cases hmake
            exact ⟨hp, item, hkind, ih hu⟩

/-- A tree that follows a closed grammar refers to nothing that is not there. -/
theorem Tree.Fits.resolves (hg : g.Closed) {t : Tree ν} {id : PatternId} (h : t.Fits g id) :
    t.Resolves g := by
  induction t using Tree.childrenInduction generalizing id with
  | h t ih =>
    refine hg.resolves h.pattern?_eq (fun p index u ht alternatives mode names hkind => ?_)
      fun u hu => ?_
    · subst ht
      obtain ⟨index', u', alternative, ht, halternative, -⟩ := h.eq_choice h.pattern?_eq hkind
      cases ht
      exact (List.getElem?_eq_some_iff.1 halternative).1
    · obtain ⟨child, hchild⟩ := exists_fits_of_mem_children h hu
      exact ih u hu hchild

end

/-! ### Accepted grammars -/

/-- Whatever is done with the pattern, no look-up in the grammar fails: not while tokens are parsed
or a shape is injected, and not afterwards, when the tree is extracted or printed. -/
structure Grammar.Serves (g : Grammar) (id : PatternId) : Prop where
  candidates : ∀ {τ ν : Type} [Token τ ν] (config : ParserConfig) (tokens : Array τ),
    match (candidates g config id tokens : Except _ (List (Candidate τ ν))) with
    | .ok cs => ∀ stop tree, .success stop tree ∈ cs → tree.Resolves g
    | .error e => e.isLookup = false
  parseAll : ∀ {τ ν : Type} [Token τ ν] (config : ParserConfig) (tokens : Array τ),
    match (parseAll g config id tokens : Except _ (List (Tree ν))) with
    | .ok trees => ∀ tree ∈ trees, tree.Resolves g
    | .error e => e.isLookup = false
  parseOne : ∀ {τ ν : Type} [Token τ ν] (config : ParserConfig) (tokens : Array τ),
    match (parseOne g config id tokens : Except _ (Tree ν)) with
    | .ok tree => tree.Resolves g
    | .error e => e.isLookup = false
  inject : ∀ {ν : Type} {codec : ShapeCodec ν}, codec.BlamesShapes → ∀ depth shape,
    match injectTo g codec depth id shape with
    | .ok tree => tree.Resolves g
    | .error e => e.isInternal = false ∨ e = .outOfFuel

theorem Grammar.Closed.serves {g : Grammar} (hg : g.Closed) {id : PatternId} (hid : id < g.size) :
    g.Serves id where
  candidates config tokens := by
    split
    · rename_i cs h
      exact fun stop tree hmem => resolves_of_candidates hg h hmem
    · rename_i e h
      exact isLookup_of_candidates hg hid h
  parseAll config tokens := by
    split
    · rename_i trees h
      exact fun tree hmem => resolves_of_parseUpTo hg h hmem
    · rename_i e h
      exact isLookup_of_parseUpTo hg hid h
  parseOne config tokens := by
    split
    · rename_i tree h
      exact resolves_of_parseOne hg h
    · rename_i e h
      exact isLookup_of_parseOne hg hid h
  inject hcodec depth shape := by
    split
    · rename_i tree h
      exact (fits_of_injectTo h).resolves hg
    · rename_i e h
      exact isInternal_of_injectTo hg hcodec hid h

/-- Whatever calls a builder gets, with whatever numbers: the grammar that comes of them, if one
does, is closed, and no look-up in it fails that starts at one of its patterns; and one comes of
them exactly if they are proper. -/
theorem Grammar.ofCalls_serves (calls : List BuilderCall) :
    (∀ g, Grammar.ofCalls calls = .ok g → g.Closed ∧ ∀ id < g.size, g.Serves id) ∧
      ((∃ g, Grammar.ofCalls calls = .ok g) ↔ BuilderCall.Proper calls) := by
  refine ⟨fun g hg => ?_, Grammar.ofCalls_eq_ok_iff⟩
  have hclosed := Grammar.Built.closed ⟨calls, hg⟩
  exact ⟨hclosed, fun id hid => hclosed.serves hid⟩

/-- The suffixes, where the rule is defined before any of its patterns is there. -/
theorem Grammar.ofCalls_serves_suffixes :
    (∀ id < suffixes.size, suffixes.Serves id) ∧
      BuilderCall.Proper [.define "suffixes" 4, .rule "suffixes", .consume "x", .sequence [0, 1],
        .consume "a", .parallelChoice [2, 3]] := by
  have hok : Grammar.ofCalls [.define "suffixes" 4, .rule "suffixes", .consume "x",
      .sequence [0, 1], .consume "a", .parallelChoice [2, 3]] = .ok suffixes := by cbv
  exact ⟨((Grammar.ofCalls_serves _).1 _ hok).2, (Grammar.ofCalls_serves _).2.1 ⟨_, hok⟩⟩

end ReversibleGrammar
