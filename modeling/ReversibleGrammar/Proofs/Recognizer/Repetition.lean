/-
What a repetition makes of what its calls list.

A repetition extends what it has found, first come, first served, until nothing is
left to extend.  That explores its chains level by level, and what it gives are the
complete ones, the last found first.

* `Store.Exploring` — the chains that a repetition has found, and those that it has still to
  extend;
* `Exploring.extend` — a chain is extended by what the next call lists;
* `many_ensures` — a repetition lists its chains.
-/
import ReversibleGrammar.Proofs.Recognizer.Construct

namespace ReversibleGrammar

section

variable {τ ν : Type} [Token τ ν] (g : Grammar) (tokens : Array τ)

namespace Store

/-- The state of a repetition is a chain. -/
structure ReadsState (s : Store) (item : PatternId) (separator : Option PatternId)
    (state : PartialMany) (c : Chain ν) : Prop where
  reads : s.ReadsRepetition g tokens item separator state.result c
  mark_eq : state.mark = c.mark
  afterItem_eq : state.afterItem = (c.afterItem && separator.isSome)

/-- The repetition has found the chains `found`, and has still to extend `queue`. -/
structure Exploring (s : Store) (context : Context) (item : PatternId)
    (separator : Option PatternId) (frame : ManyFrame) (found queue : List (Chain ν)) : Prop where
  context_eq : frame.context = context
  item_eq : frame.item = item
  separator_eq : frame.separator = separator
  emitted_faithful : frame.emitted.Faithful
  separated_faithful : frame.separated.Faithful
  emitted : List.Forall₂ (s.ReadsRepetition g tokens item separator)
    frame.emitted.toList (found.filter Chain.isComplete)
  separated : List.Forall₂ (s.ReadsRepetition g tokens item separator)
    frame.separated.toList (found.filter fun c => !c.isComplete)
  queue : List.Forall₂ (s.ReadsState g tokens item separator)
    (frame.front ++ frame.back.reverse) queue

end Store

end

section

variable {τ ν : Type} [Token τ ν] {g : Grammar} {tokens : Array τ} {s t : Store}
variable {context : Context} {item : PatternId} {separator : Option PatternId}
variable {frame : ManyFrame} {found queue : List (Chain ν)} {c : Chain ν}

/-- The next state to extend is the first of the queue. -/
theorem nextMany_cases (frame : ManyFrame) (s : Store) :
    (frame.front ++ frame.back.reverse = [] ∧ ∀ frames, nextMany frame frames s =
      (.give frame.emitted.toList.reverse, frames)) ∨
    ∃ state front back, frame.front ++ frame.back.reverse = state :: (front ++ back.reverse) ∧
      ∀ frames, nextMany frame frames s = callMany { frame with front, back } state frames s := by
  cases hfront : frame.front with
  | cons state front =>
    exact .inr ⟨state, front, frame.back, rfl, fun _ => by simp only [nextMany, hfront]⟩
  | nil =>
    cases hback : frame.back.reverse with
    | cons state front =>
      exact .inr ⟨state, front, [], by simp, fun _ => by simp only [nextMany, hfront, hback]⟩
    | nil => exact .inl ⟨rfl, fun _ => by simp only [nextMany, hfront, hback]⟩

theorem Store.ReadsState.mono (hs : s.Sound) (hgrows : s.Grows t) {state : PartialMany}
    (h : s.ReadsState g tokens item separator state c) :
    t.ReadsState g tokens item separator state c :=
  ⟨h.reads.mono hs hgrows, h.mark_eq, h.afterItem_eq⟩

theorem Store.Exploring.mono (hs : s.Sound) (hgrows : s.Grows t)
    (h : s.Exploring g tokens context item separator frame found queue) :
    t.Exploring g tokens context item separator frame found queue where
  context_eq := h.context_eq
  item_eq := h.item_eq
  separator_eq := h.separator_eq
  emitted_faithful := h.emitted_faithful
  separated_faithful := h.separated_faithful
  emitted := h.emitted.imp fun _ _ hread => hread.mono hs hgrows
  separated := h.separated.imp fun _ _ hread => hread.mono hs hgrows
  queue := h.queue.imp fun _ _ hread => hread.mono hs hgrows

/-! ### New chains -/

/-- New repetitions with one item more. -/
theorem foldl_emit (s : Store) (mark : Nat) {ids : List ResultId}
    (hfaithful : frame.emitted.Faithful) (hnodup : (frame.emitted.toList ++ ids).Nodup) :
    ids.foldl (fun frame id => frame.add s mark false id) frame =
      { frame with
        emitted := frame.emitted.insertAll ids
        back := (ids.map fun id =>
          ⟨id, (s.result id).stop, frame.separator.isSome⟩).reverse ++ frame.back } := by
  induction ids generalizing frame with
  | nil => rfl
  | cons id ids ih =>
    have hid : id ∉ frame.emitted.toList := fun hmem =>
      (List.nodup_append.1 hnodup).2.2 id hmem id List.mem_cons_self rfl
    have hadd : frame.add s mark false id =
        { frame with
          emitted := frame.emitted.insert id
          back := ⟨id, (s.result id).stop, frame.separator.isSome⟩ :: frame.back } := by
      simp only [ManyFrame.add, Bool.false_eq_true, if_false, emitMany, hfaithful.not_holds hid]
    have hinsert : (frame.emitted.insert id).toList = frame.emitted.toList ++ [id] := by
      rw [hfaithful.toList_insert, if_neg hid]
    rw [List.foldl_cons, hadd, ih (hfaithful.insert id) (by rw [hinsert]; simpa using hnodup)]
    simp [ResultSet.insertAll]

/-- New repetitions with one separator more. -/
theorem foldl_separate (s : Store) (mark : Nat) {ids : List ResultId}
    (hfaithful : frame.separated.Faithful) (hnodup : (frame.separated.toList ++ ids).Nodup) :
    ids.foldl (fun frame id => frame.add s mark true id) frame =
      { frame with
        separated := frame.separated.insertAll ids
        back := (ids.map fun id => ⟨id, mark, false⟩).reverse ++ frame.back } := by
  induction ids generalizing frame with
  | nil => rfl
  | cons id ids ih =>
    have hid : id ∉ frame.separated.toList := fun hmem =>
      (List.nodup_append.1 hnodup).2.2 id hmem id List.mem_cons_self rfl
    have hadd : frame.add s mark true id =
        { frame with
          separated := frame.separated.insert id
          back := ⟨id, mark, false⟩ :: frame.back } := by
      simp only [ManyFrame.add, if_true, separateMany, hfaithful.not_holds hid, Bool.false_eq_true,
        if_false]
    have hinsert : (frame.separated.insert id).toList = frame.separated.toList ++ [id] := by
      rw [hfaithful.toList_insert, if_neg hid]
    rw [List.foldl_cons, hadd, ih (hfaithful.insert id) (by rw [hinsert]; simpa using hnodup)]
    simp [ResultSet.insertAll]

theorem Chain.filter_isComplete {ds : List (Chain ν)} {b : Bool}
    (h : ∀ d ∈ ds, d.isComplete = b) :
    ds.filter Chain.isComplete = (if b then ds else []) ∧
      (ds.filter fun d => !d.isComplete) = if b then [] else ds := by
  cases b with
  | true =>
    exact ⟨List.filter_eq_self.2 h, List.filter_eq_nil_iff.2 fun d hd => by simp [h d hd]⟩
  | false =>
    exact ⟨List.filter_eq_nil_iff.2 fun d hd => by simp [h d hd],
      List.filter_eq_self.2 fun d hd => by simp [h d hd]⟩

/-- Results that read chains with different parts are not among those of other chains. -/
theorem nodup_append_of_reads {olds news : List ResultId} {cs ds : List (Chain ν)}
    {select : Chain ν → Bool}
    (holds : List.Forall₂ (s.ReadsRepetition g tokens item separator) olds (cs.filter select))
    (hnews : List.Forall₂ (s.ReadsRepetition g tokens item separator) news ds)
    (hnodup : ((cs ++ ds).map Chain.key).Nodup) : (olds ++ news).Nodup := by
  have hsublist : (cs.filter select ++ ds).Sublist (cs ++ ds) :=
    List.filter_sublist.append (List.Sublist.refl ds)
  have hunique : ∀ r (c c' : Chain ν), s.ReadsRepetition g tokens item separator r c →
      s.ReadsRepetition g tokens item separator r c' → c.key = c'.key :=
    fun _ _ _ => Store.ReadsRepetition.unique
  exact Store.nodup_of_forall₂ hunique
    (List.rel_append holds hnews) (hnodup.sublist (hsublist.map _))

/-- Chains with one item more are complete, and wait for their turn. -/
theorem Store.Exploring.emit
    (h : s.Exploring g tokens context item separator frame found queue) {news : List ResultId}
    {ds : List (Chain ν)}
    (hnews : List.Forall₂ (s.ReadsRepetition g tokens item separator) news ds)
    (hds : ∀ d ∈ ds, d.afterItem = true ∧ d.mark = d.stop)
    (hnodup : ((found ++ ds).map Chain.key).Nodup) (mark : Nat) :
    s.Exploring g tokens context item separator
      (news.foldl (fun frame id => frame.add s mark false id) frame)
      (found ++ ds) (queue ++ ds) := by
  have hids := nodup_append_of_reads h.emitted hnews hnodup
  have hall : ∀ d ∈ ds, d.isComplete = true := fun d hd => by simp [Chain.isComplete, (hds d hd).1]
  obtain ⟨hcomplete, hincomplete⟩ := Chain.filter_isComplete hall
  rw [foldl_emit s mark h.emitted_faithful hids]
  refine ⟨h.context_eq, h.item_eq, h.separator_eq, h.emitted_faithful.insertAll news,
    h.separated_faithful, ?_, ?_, ?_⟩
  · rw [h.emitted_faithful.toList_insertAll hids, List.filter_append, hcomplete]
    exact List.rel_append h.emitted hnews
  · rw [List.filter_append, hincomplete]
    simpa using h.separated
  · rw [List.reverse_append, List.reverse_reverse, ← List.append_assoc]
    refine List.rel_append h.queue (List.forall₂_map_left_iff.2 ?_)
    refine (forall₂_imp_of_mem (fun d hd r hread => ?_) hnews.flip).flip
    obtain ⟨hafter, hmark⟩ := hds d hd
    refine ⟨hread, ?_, by simp [hafter, h.separator_eq]⟩
    obtain ⟨f, hmatched, -⟩ := hread
    rw [hmark, hmatched.result_eq]

/-- Chains with one separator more wait for their turn. -/
theorem Store.Exploring.separate (h : s.Exploring g tokens context item separator frame found queue)
    {news : List ResultId} {ds : List (Chain ν)} {mark : Nat}
    (hnews : List.Forall₂ (s.ReadsRepetition g tokens item separator) news ds)
    (hds : ∀ d ∈ ds, d.isComplete = false ∧ d.afterItem = false ∧ d.mark = mark)
    (hnodup : ((found ++ ds).map Chain.key).Nodup) :
    s.Exploring g tokens context item separator
      (news.foldl (fun frame id => frame.add s mark true id) frame)
      (found ++ ds) (queue ++ ds) := by
  have hids := nodup_append_of_reads h.separated hnews hnodup
  obtain ⟨hcomplete, hincomplete⟩ := Chain.filter_isComplete fun d hd => (hds d hd).1
  rw [foldl_separate s mark h.separated_faithful hids]
  refine ⟨h.context_eq, h.item_eq, h.separator_eq, h.emitted_faithful,
    h.separated_faithful.insertAll news, ?_, ?_, ?_⟩
  · rw [List.filter_append, hcomplete]
    simpa using h.emitted
  · rw [h.separated_faithful.toList_insertAll hids, List.filter_append, hincomplete]
    exact List.rel_append h.separated hnews
  · rw [List.reverse_append, List.reverse_reverse, ← List.append_assoc]
    refine List.rel_append h.queue (List.forall₂_map_left_iff.2 ?_)
    refine (forall₂_imp_of_mem (fun d hd r hread => ?_) hnews.flip).flip
    obtain ⟨-, hafter, hmark⟩ := hds d hd
    exact ⟨hread, hmark.symm, by simp [hafter]⟩

/-! ### One call -/

theorem Store.Lists.filter {α : Type} {P : ResultId → α → Prop} {ids : List ResultId}
    {xs : List α} (h : s.Lists P ids xs) {select : ResultId → Bool} {select' : α → Bool}
    (heq : ∀ r x, P r x → select r = select' x) :
    s.Lists P (ids.filter select) (xs.filter select') := by
  refine ⟨fun r hr => h.known r (List.mem_of_mem_filter hr), ?_⟩
  have hcomm : successesOf s (ids.filter select) = (successesOf s ids).filter select := by
    simp only [successesOf, List.filter_filter, Bool.and_comm]
  rw [hcomm]
  refine List.rel_filter (fun r x hx => ?_) h.reads
  simp only [heq r x hx]

/-- Results that are read, one by one, are matches. -/
theorem lists_of_forall₂ {α : Type} {P : ResultId → α → Prop} {ids : List ResultId} {xs : List α}
    (hP : ∀ r x, P r x → ∃ f stop, s.Matched r f stop) (h : List.Forall₂ P ids xs) :
    s.Lists P ids xs := by
  induction h with
  | nil => exact Store.lists_nil P
  | cons hx _ ih =>
    obtain ⟨f, stop, hmatched⟩ := hP _ _ hx
    exact ih.cons_matched hmatched hx

/-- A chain is extended by what the call of its next part lists. -/
theorem Store.Exploring.extend {size i : Nat} {read : Readings ν} (hread : read.Forward g size)
    (hs : s.Sound) (h : s.Exploring g tokens context item separator frame found queue)
    {state : PartialMany} (hstate : s.ReadsState g tokens item separator state c)
    (hc : c.Forward size i) {isSeparator : Bool} {part : PatternId}
    (hpart : if isSeparator then c.nextSeparator? separator = some part
      else c.nextSeparator? separator = none ∧ part = item)
    {results : List ResultId}
    (hresults : s.Lists (s.Reads g tokens part) results (read part c.stop))
    (hnodup : ((found ++ c.extend read item separator).map Chain.key).Nodup) :
    ∃ frame' t, extendMany (s.result state.result) state.mark isSeparator results frame s =
        (frame', t) ∧ s.Extends t ∧ t.Exploring g tokens context item separator frame'
          (found ++ c.extend read item separator) (queue ++ c.extend read item separator) := by
  obtain ⟨⟨f, hmatched, hitems⟩, hmark, -⟩ := hstate
  obtain ⟨made, t, hextend, hextends, hremade⟩ := extendMany_remade c.stop state.mark isSeparator
    frame hs (hs.exists_fragment hmatched) hresults.known
  have hitems := hitems.mono hs hextends.grows
  have hresults := hresults.reads_mono hs hextends.grows
  have hexploring := h.mono hs hextends.grows
  rw [hmatched.result_eq]
  refine ⟨_, t, hextend, hextends, ?_⟩
  cases isSeparator with
  | true =>
    obtain ⟨hafter, rfl⟩ := Chain.nextSeparator?_eq_some hpart
    have hextend : c.extend read item (some part) = (read part c.stop).map c.withSeparator := by
      simp only [Chain.extend, show c.nextSeparator? (some part) = some part from hpart]
    rw [hextend] at hnodup ⊢
    have hall : progressing t state.mark true results = results := by simp [progressing]
    rw [hall] at hremade
    have hmade := hresults.remade (Q := t.ReadsRepetition g tokens item (some part))
      (F := c.withSeparator) hremade fun f f' r r' stop y hr hr' hf' hy =>
        Store.readsRepetition_separator hextends.sound hr hr' hf' hitems hy
    refine hexploring.separate hmade.reads (fun d hd => ?_) hnodup
    obtain ⟨y, -, rfl⟩ := List.mem_map.1 hd
    have hne : c.items.isEmpty = false := by simpa using hc.items_ne_nil hafter
    exact ⟨by simp [Chain.isComplete, Chain.withSeparator, hne], rfl, hmark.symm⟩
  | false =>
    obtain ⟨hnone, rfl⟩ := hpart
    have hextend : c.extend read part separator =
        ((read part c.stop).filter fun y => c.mark < y.2).map c.withItem := by
      simp only [Chain.extend, hnone]
    rw [hextend] at hnodup ⊢
    -- what does not make progress stops where the last item does
    have hprogress : t.Lists (t.Reads g tokens part) (progressing t state.mark false results)
        ((read part c.stop).filter fun y => c.mark < y.2) := by
      have hfilter : ((read part c.stop).filter fun y => c.mark < y.2) =
          (read part c.stop).filter fun y => y.2 != c.mark := by
        refine List.filter_congr fun y hy => ?_
        have hle := (hread part c.stop hc.stop_le y hy).1
        have hmark := hc.mark_le
        rw [Bool.eq_iff_iff]
        simp only [decide_eq_true_iff, bne_iff_ne]
        omega
      rw [hfilter]
      refine hresults.filter fun r y hy => ?_
      obtain ⟨f, hmatched, -⟩ := hy
      rw [hmatched.result_eq, hmark]
      rfl
    have hmade := hprogress.remade (Q := t.ReadsRepetition g tokens part separator)
      (F := c.withItem) hremade fun f f' r r' stop y hr hr' hf' hy =>
        Store.readsRepetition_item hextends.sound hr hr' hf' hitems hy
    refine hexploring.emit hmade.reads (fun d hd => ?_) hnodup state.mark
    obtain ⟨y, -, rfl⟩ := List.mem_map.1 hd
    exact ⟨rfl, rfl⟩

/-! ### All calls -/

/-- A repetition calls the pattern of the part that comes next. -/
theorem callMany_cases (h : s.Exploring g tokens context item separator frame found queue)
    {state : PartialMany} (hstate : s.ReadsState g tokens item separator state c)
    (front back : List PartialMany) :
    ∃ isSeparator,
      (if isSeparator then c.nextSeparator? separator = some (c.nextPart item separator)
        else c.nextSeparator? separator = none ∧ c.nextPart item separator = item) ∧
      ∀ frames, callMany { frame with front, back } state frames s =
        (.call (c.nextPart item separator) c.stop context,
          .many { frame with front, back } state isSeparator :: frames) := by
  obtain ⟨⟨f, hmatched, -⟩, -, hafter⟩ := hstate
  have hcontext := h.context_eq
  have hitem := h.item_eq
  have hseparator := h.separator_eq
  cases hnext : c.nextSeparator? separator with
  | some child =>
    obtain ⟨hc, rfl⟩ := Chain.nextSeparator?_eq_some hnext
    rw [hc] at hafter
    refine ⟨true, by simp [Chain.nextPart, hnext], fun frames => ?_⟩
    simp only [callMany, hseparator, hafter, hmatched.result_eq, hcontext, Chain.nextPart, hnext]
    rfl
  | none =>
    refine ⟨false, by simp [Chain.nextPart, hnext], fun frames => ?_⟩
    have hnot : state.afterItem = false ∨ separator = none := by
      cases separator with
      | none => exact .inr rfl
      | some child =>
        cases hc : c.afterItem with
        | true => simp [Chain.nextSeparator?, hc] at hnext
        | false =>
          rw [hc] at hafter
          exact .inl hafter
    unfold callMany
    split
    · rename_i child hchild htrue
      rcases hnot with hfalse | hnone
      · rw [hfalse] at htrue
        cases htrue
      · rw [show frame.separator = some child from hchild] at hseparator
        rw [← hseparator] at hnone
        cases hnone
    · simp only [hmatched.result_eq, hcontext, hitem, Chain.nextPart, hnext]
      rfl

section

variable {fault : Site → Prop} {Pre Inv : Tables → Prop} {id : PatternId} {p : Pattern} {i : Nat}
variable {read : Readings ν}

/-- Extending the first chain of a queue comes first, and what comes of it is last in the queue. -/
theorem levels_cons {size rounds : Nat} (hread : read.Forward g size) (hc : c.Forward size i)
    (hweight : c.weight size < rounds) (item : PatternId) (separator : Option PatternId)
    (cs : List (Chain ν)) :
    levels (Chain.extend read item separator) rounds (c :: cs) =
      c :: levels (Chain.extend read item separator) rounds
        (cs ++ c.extend read item separator) := by
  have hI : ∀ x : Chain ν, x.Forward size i → ∀ y ∈ x.extend read item separator,
      y.Forward size i := fun x hx => hx.extend hread
  have hlt : ∀ x : Chain ν, x.Forward size i → ∀ y ∈ x.extend read item separator,
      y.weight size < x.weight size := fun x hx => Chain.weight_lt hread hx
  have happend := levels_append (Chain.weight size) hI hlt
    (List.forall_mem_singleton.2 hc) (List.forall_mem_singleton.2 hweight) cs
  simpa using happend

theorem prefix_levels {α : Type} (extend : α → List α) {rounds : Nat} (hrounds : 0 < rounds)
    (xs : List α) : xs <+: levels extend rounds xs := by
  obtain ⟨rounds, rfl⟩ := Nat.exists_eq_succ_of_ne_zero hrounds.ne'
  exact List.prefix_append xs _

/-- A repetition extends what it has found until nothing is left to extend. -/
theorem nextMany_ensures (hp : g.pattern? id = some p) (hkind : p.kind = .many item separator)
    (hread : read.Forward g tokens.size) (hdistinct : read.Distinct) (hi : i ≤ tokens.size)
    {rounds : Nat} {done : List (Chain ν)}
    (hcalls : AnswersAll g tokens fault context read
      ((levels (Chain.extend read item separator) rounds queue).map fun c =>
        (c.nextPart item separator, c.stop)) Pre Inv)
    (hchains : read.chains item separator tokens.size i =
      done ++ levels (Chain.extend read item separator) rounds queue)
    (hweight : ∀ c ∈ queue, c.weight tokens.size < rounds) {t u : Tables}
    (hgrows : t.store.Grows u.store) (hu : Pre u)
    (hexploring : u.store.Exploring g tokens context item separator frame (done ++ queue) queue) :
    ∃ task : Task, (∀ frames, nextMany frame frames u.store = task.turn frames) ∧
      task.Ensures g (.ofTokens tokens) fault u (t.Answered g tokens Inv id
        (((read.chains item separator tokens.size i).filter Chain.isComplete).reverse.map
          fun c => (.many p c.items c.separators, c.stop))) := by
  induction hlength : (levels (Chain.extend read item separator) rounds queue).length using
    Nat.strongRecOn generalizing done queue frame u Pre with
  | ind length ih =>
  subst hlength
  have hs := hcalls.stable.1.sound hu
  rcases nextMany_cases frame u.store with ⟨hempty, hnext⟩ | ⟨state, front, back, hcons, hnext⟩
  · -- nothing is left to extend
    have hqueue := hexploring.queue
    rw [hempty, List.forall₂_nil_left_iff] at hqueue
    subst hqueue
    rw [levels_nil, List.append_nil] at hchains
    rw [levels_nil, List.map_nil] at hcalls
    cases hcalls
    refine ⟨.give frame.emitted.toList.reverse, hnext, ensures_give ⟨hu, hgrows, ?_⟩⟩
    have hemitted := hexploring.emitted
    rw [List.append_nil, ← hchains] at hemitted
    have hlists := lists_of_forall₂
      (fun r c (hc : u.store.ReadsRepetition g tokens item separator r c) =>
        hc.imp fun f h => ⟨_, h.1⟩)
      (List.forall₂_reverse_iff.2 hemitted)
    exact hlists.map fun r c hc => Store.reads_many hs hp hkind hc
  · have hqueue := hexploring.queue
    rw [hcons] at hqueue
    cases hqueue with
    | @cons _ c _ cs hstate hrest =>
    have hrounds : c.weight tokens.size < rounds := hweight c List.mem_cons_self
    have hc : c ∈ read.chains item separator tokens.size i := by
      have hbefore := prefix_levels (Chain.extend read item separator)
        (Nat.zero_lt_of_lt hrounds) (c :: cs)
      rw [hchains]
      exact List.mem_append_right _ (hbefore.subset List.mem_cons_self)
    have hforward : c.Forward tokens.size i := chains_forward hread hi c hc
    have hlevels := levels_cons hread hforward hrounds item separator cs
    rw [hlevels] at hchains hcalls ih
    rw [List.map_cons] at hcalls
    obtain - | @⟨_, Mid, _, _, _, -, hcall, hcalls⟩ := hcalls
    have hMid := hcalls.stable.1
    have hlater := prefix_levels (Chain.extend read item separator) (Nat.zero_lt_of_lt hrounds)
      (cs ++ c.extend read item separator)
    have hnodup : (((done ++ c :: cs) ++ c.extend read item separator).map Chain.key).Nodup := by
      have hbefore : (done ++ c :: cs) ++ c.extend read item separator <+:
          read.chains item separator tokens.size i := by
        rw [hchains, List.append_assoc, List.cons_append]
        exact (List.prefix_append_right_inj done).2 ((List.prefix_cons_inj c).2 hlater)
      exact (chains_nodup hdistinct item separator tokens.size i).sublist (hbefore.sublist.map _)
    have hweight' : ∀ d ∈ cs ++ c.extend read item separator, d.weight tokens.size < rounds := by
      intro d hd
      rcases List.mem_append.1 hd with hd | hd
      · exact hweight d (List.mem_cons_of_mem c hd)
      · exact (Chain.weight_lt hread hforward d hd).trans hrounds
    obtain ⟨isSeparator, hpart, hturn⟩ := callMany_cases hexploring hstate front back
    refine ⟨.wait (c.nextPart item separator) c.stop context
      (.many { frame with front, back } state isSeparator),
      fun frames => (hnext frames).trans (hturn frames),
      ensures_wait (hcall u hu) fun results v hv => ?_⟩
    obtain ⟨store, memo, counts, cutoffs⟩ := v
    have hs' : store.Sound := hMid.sound hv.inv
    have hgrows' : u.store.Grows store := hv.grows
    have hpopped : store.Exploring g tokens context item separator { frame with front, back }
        (done ++ c :: cs) cs :=
      { hexploring.mono hs hgrows' with queue := hrest.imp fun _ _ h => h.mono hs hgrows' }
    obtain ⟨frame', s', hextend, hextends, hexploring'⟩ := hpopped.extend hread hs'
      (hstate.mono hs hgrows') hforward hpart hv.lists hnodup
    have hmid : Mid ⟨s', memo, counts, cutoffs⟩ := hMid.withStore hv.inv hextends
    rw [show (done ++ c :: cs) ++ c.extend read item separator =
      (done ++ [c]) ++ (cs ++ c.extend read item separator) by simp] at hexploring'
    obtain ⟨task, hnext', h⟩ := ih _ (Nat.lt_succ_self _) hcalls (by simpa using hchains) hweight'
      (hgrows.trans (hgrows'.trans hextends.grows)) hmid hexploring' rfl
    refine ⟨task, ⟨s', memo, counts, cutoffs⟩, fun frames => ?_, h⟩
    simp only [resume, hextend, hnext']
    rfl

/-- A repetition lists its complete chains, the last found first. -/
theorem many_ensures (hp : g.pattern? id = some p) (hkind : p.kind = .many item separator)
    (hread : read.Forward g tokens.size) (hdistinct : read.Distinct) (hi : i ≤ tokens.size)
    (hcalls : AnswersAll g tokens fault context read
      ((read.chains item separator tokens.size i).map fun c =>
        (c.nextPart item separator, c.stop)) Pre Inv) {t : Tables} (ht : Pre t) :
    p.Ensures g (.ofTokens tokens) fault i context t (t.Answered g tokens Inv id
      (((read.chains item separator tokens.size i).filter Chain.isComplete).reverse.map
        fun c => (.many p c.items c.separators, c.stop))) := by
  have hPre := hcalls.stable.1
  obtain ⟨initial, s, hinitial, hextends, f, hmatched, hf⟩ :=
    (hPre.sound ht).made .manyStart (by simp [Fragment.parts]) i
  have hpre : Pre { t with store := s } := hPre.withStore ht hextends
  have hstart : s.ReadsRepetition (ν := ν) g tokens item separator initial (.start i) :=
    ⟨f, hmatched, Store.readsItems_nil hf⟩
  let frame : ManyFrame :=
    { context, item, separator
      front := [⟨initial, i, false⟩]
      back := []
      emitted := ResultSet.empty.insert initial
      separated := .empty }
  have hexploring : s.Exploring g tokens context item separator frame ([] ++ [Chain.start i])
      [Chain.start i] :=
    { context_eq := rfl
      item_eq := rfl
      separator_eq := rfl
      emitted_faithful := ResultSet.faithful_empty.insert initial
      separated_faithful := ResultSet.faithful_empty
      emitted := .cons hstart .nil
      separated := .nil
      queue := .cons ⟨hstart, rfl, rfl⟩ .nil }
  have hweight : ∀ c ∈ [(Chain.start i : Chain ν)],
      c.weight tokens.size < 2 * (tokens.size - i) + 1 := by
    intro c hc
    rw [List.mem_singleton.1 hc]
    exact Nat.lt_succ_self _
  obtain ⟨task, hnext, h⟩ := nextMany_ensures hp hkind hread hdistinct hi hcalls
    (List.nil_append _).symm hweight hextends.grows hpre hexploring
  refine ⟨task, s, fun frames => ?_, h⟩
  have hnext : nextMany frame frames s = task.turn frames := hnext frames
  simp only [frame] at hnext
  simp only [evaluate, hkind, startMany, hinitial, hnext]

/-! ### All constructs -/

/-- A pattern lists its matches, if its calls do, one after the other. -/
theorem readings_ensures (hg : g.Closed) (hp : g.pattern? id = some p)
    (hread : read.Forward g tokens.size) (hdistinct : read.Distinct) (hi : i ≤ tokens.size)
    (hcalls : AnswersAll g tokens fault context read (p.calls g tokens.size read i) Pre Inv)
    {t : Tables} (ht : Pre t) :
    p.Ensures g (.ofTokens tokens) fault i context t
      (t.Answered g tokens Inv id (p.readings g tokens read i)) := by
  have hnodup := p.readings_distinct g tokens hdistinct i
  have hwrapped {wrapper : Wrapper} {child : PatternId}
      (hkind : p.kind.wrapped? g = some (wrapper, child)) :
      p.Ensures g (.ofTokens tokens) fault i context t
        (t.Answered g tokens Inv id (p.readings g tokens read i)) := by
    rw [Pattern.calls_wrapped hkind] at hcalls
    obtain - | ⟨-, hcall, ⟨hInv⟩⟩ := hcalls
    rw [Pattern.readings_wrapped hkind]
    exact wrapped_ensures hInv hp hkind hcall ht
  have hmark {marker : Marker} (hkind : p.kind.mark? = some marker) :
      p.Ensures g (.ofTokens tokens) fault i context t
        (t.Answered g tokens Inv id (p.readings g tokens read i)) := by
    rw [Pattern.calls_mark hkind] at hcalls
    obtain ⟨hInv⟩ := hcalls
    rw [Pattern.readings_mark hkind]
    exact mark_ensures hInv hp hkind ht
  cases hkind : p.kind with
  | consume terminal =>
    simp only [Pattern.calls, hkind] at hcalls
    obtain ⟨hInv⟩ := hcalls
    exact (consume_ensures hInv hp hkind read ht).mono fun _ _ h => h.1
  | sequence children =>
    simp only [Pattern.calls, hkind] at hcalls
    simp only [Pattern.readings, hkind]
    exact sequence_ensures hp hkind hdistinct hcalls ht
  | choice alternatives mode names =>
    simp only [Pattern.calls, hkind] at hcalls
    simp only [Pattern.readings, hkind] at hnodup ⊢
    exact choice_ensures hp hkind hcalls (fun a _ => hdistinct a i) hnodup ht
  | many item separator =>
    simp only [Pattern.calls, hkind] at hcalls
    simp only [Pattern.readings, hkind]
    exact many_ensures hp hkind hread hdistinct hi hcalls ht
  | option item =>
    simp only [Pattern.calls, hkind] at hcalls
    obtain - | ⟨-, hcall, ⟨hInv⟩⟩ := hcalls
    simp only [Pattern.readings, hkind] at hnodup ⊢
    exact option_ensures hInv hp hkind hcall hnodup ht
  | thunk rule =>
    have hlt := (hg.closedAt id p hp).rule_lt rule hkind
    refine hwrapped (show p.kind.wrapped? g = some (.thunk, g.rules[rule].body) from ?_)
    rw [hkind]
    simp only [PatternKind.wrapped?, Grammar.ruleBody?, Array.getElem?_eq_getElem hlt,
      Option.map_some]
  | indent | group | conditional => exact hwrapped (by rw [hkind]; rfl)
  | literal | line => exact hmark (by rw [hkind]; rfl)

end

end

end ReversibleGrammar
