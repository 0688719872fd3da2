/-
Without left recursion, recognition lists exactly what a grammar matches.

A pattern is then never entered inside itself at one position.  Whatever a call may
touch weighs no more than its pattern, and whatever its path has entered weighs more,
so that the depths of the path are the present ones.  That is why a remembered result
is always given again, and why a call is only cut off where nothing matches.

* `Calm` — what every call finds and leaves: exact results, and present depths;
* `Calm.allows` — a path never forbids what is remembered;
* `Readings.Scatters` — calls that are never made twice, so that they are never cut off;
* `answers_exact` — every call lists what its pattern matches;
* `recognition_exact` — so do candidates and parses, in order.
-/
import ReversibleGrammar.Proofs.Recognizer.Answer
import ReversibleGrammar.Proofs.Recognizer.Repetition

namespace ReversibleGrammar

theorem RecursionMap.mem_of_get? {map : RecursionMap} {site : Site} {depth : Nat}
    (h : map.get? site = some depth) : (site, depth) ∈ map := by
  induction map with
  | nil => cases h
  | cons entry rest ih =>
    obtain ⟨other, old⟩ := entry
    unfold get? at h
    split at h
    · rename_i heq
      rw [← heq, ← Option.some.inj h]
      exact List.mem_cons_self
    · exact List.mem_cons_of_mem _ (ih h)

theorem Context.mem_of_at? {context : Context} {index : Nat} {map : MapId}
    (h : context.at? index = some map) : (index, map) ∈ context := by
  induction context with
  | nil => cases h
  | cons entry rest ih =>
    obtain ⟨position, other⟩ := entry
    unfold at? at h
    split at h
    · rename_i heq
      rw [← heq, ← Option.some.inj h]
      exact List.mem_cons_self
    · exact List.mem_cons_of_mem _ (ih h)

theorem Context.mem_replace {context : Context} {index : Nat} {map : MapId} {entry : Nat × MapId}
    (h : entry ∈ context.replace index map) : entry ∈ context ∨ entry = (index, map) := by
  induction context with
  | nil => cases h
  | cons first rest ih =>
    obtain ⟨position, old⟩ := first
    unfold replace at h
    split at h
    · rename_i hposition
      rcases List.mem_cons.1 h with rfl | h
      · exact .inr (by rw [hposition])
      · exact .inl (List.mem_cons_of_mem _ h)
    · rcases List.mem_cons.1 h with rfl | h
      · exact .inl List.mem_cons_self
      · exact (ih h).imp (List.mem_cons_of_mem _) fun h => h

section

variable {τ ν : Type} [Token τ ν] (g : Grammar) (tokens : Array τ) (read : Readings ν)
variable (weight : PatternId → Nat → Nat)

/-- The site belongs to a pattern of at least this weight there. -/
def Heavy (w : Nat) (site : Site) : Prop :=
  ∃ id p, g.pattern? id = some p ∧ site.recognizer = p.recognizer ∧ w ≤ weight id site.index

/-- What a call finds that may touch what weighs less than `w` only: what is remembered is exact,
and the depths of the path are the present ones.  What weighs more is as in `base`. -/
structure Calm (context : Context) (w : Nat) (base t : Tables) : Prop where
  sound : t.store.Sound
  exact : ∀ {id p i set}, g.pattern? id = some p →
    t.memo[(⟨i, p.recognizer⟩ : Site)]? = some set →
      set.Faithful ∧ t.store.Lists (t.store.Reads g tokens id) set.toList (read id i)
  depths : t.store.DepthsLe fun site => t.counts.getD site 0
  context : ∀ e ∈ context, ∃ map, t.store.maps.get? e.2 = some map ∧
    ∀ entry ∈ map, Heavy g weight w entry.1 ∧ entry.2 = base.counts.getD entry.1 0
  frame : ∀ {site}, Heavy g weight w site →
    t.counts.getD site 0 = base.counts.getD site 0 ∧ t.memo[site]? = base.memo[site]?
  settled : ∀ {id p i}, g.pattern? id = some p → weight id i < w →
    0 < t.counts.getD ⟨i, p.recognizer⟩ 0 →
      ∃ set, t.memo[(⟨i, p.recognizer⟩ : Site)]? = some set

end

section

variable {τ ν : Type} [Token τ ν] {g : Grammar} {tokens : Array τ} {read : Readings ν}
variable {weight : PatternId → Nat → Nat} {context inner : Context} {w : Nat} {base t u : Tables}
variable {id : PatternId} {p : Pattern} {i : Nat} {watched : Call → Prop}
variable {leads : Call → Call → Prop}

theorem Heavy.mono {w' : Nat} (hle : w' ≤ w) {site : Site} (h : Heavy g weight w site) :
    Heavy g weight w' site := by
  obtain ⟨id, p, hp, hsite, hw⟩ := h
  exact ⟨id, p, hp, hsite, hle.trans hw⟩

/-- Patterns are told apart by their sites, so that a heavy site is not that of a light pattern. -/
theorem Heavy.ne (hg : g.Closed) (hl : g.DistinctLabels) {site : Site}
    (h : Heavy g weight w site) (hp : g.pattern? id = some p) (hlt : weight id i < w) :
    site ≠ ⟨i, p.recognizer⟩ := by
  rintro rfl
  obtain ⟨id', p', hp', hsite, hw⟩ := h
  obtain rfl : id = id' := hl.eq_of_recognizer_eq hg.id_eq hp hp' hsite
  exact absurd (hlt.trans_le hw) (lt_irrefl _)

theorem calm_stable : Tables.Stable (Calm g tokens read weight context w base) where
  sound h := h.sound
  withStore {t _} h hextends :=
    { sound := hextends.sound
      exact := fun hp hset => ⟨(h.exact hp hset).1,
        (h.exact hp hset).2.reads_mono h.sound hextends.grows⟩
      depths := hextends.depths (fun site => t.counts.getD site 0) h.depths
      context := fun e he => by
        obtain ⟨map, hmap, hentries⟩ := h.context e he
        exact ⟨map, hextends.grows.maps hmap, hentries⟩
      frame := h.frame
      settled := h.settled }

/-- The depths of the path are the present ones, and nothing has been deeper. -/
theorem Calm.allows (h : Calm g tokens read weight context w base t) (index : Nat)
    (recorded : MapId) :
    (t.store.map ((context.at? index).getD emptyMap)).allows (t.store.map recorded) = true := by
  rw [RecursionMap.allows, List.all_eq_true]
  intro entry hentry
  have hdepth := @Store.DepthsLe.map t.store (fun site => t.counts.getD site 0) h.depths recorded
    entry hentry
  split
  · rename_i active hactive
    have hmem := RecursionMap.mem_of_get? hactive
    cases hmap : context.at? index with
    | none =>
      rw [hmap, Option.getD_none, Store.map, Interner.get_eq_of_get? h.sound.map_empty] at hmem
      cases hmem
    | some map =>
      obtain ⟨map', hmap', hentries⟩ := h.context _ (Context.mem_of_at? hmap)
      rw [hmap, Option.getD_some, Store.map, Interner.get_eq_of_get? hmap'] at hmem
      obtain ⟨hheavy, hbase⟩ := hentries _ hmem
      have hpresent := (h.frame hheavy).1
      simp only at hbase hpresent hdepth
      rw [hbase, ← hpresent]
      simpa using hdepth
  · rfl

/-- What is remembered of a match is always given again. -/
theorem Calm.replay_eq (h : Calm g tokens read weight context w base t) (site : Site) :
    t.replay? site context =
      match t.memo[site]? with
      | some set => if set.isEmpty then none else some set.toList
      | none => none := by
  unfold Tables.replay?
  split
  · rename_i hnone
    rw [hnone]
  · rename_i set hset
    simp only [hset, h.allows site.index, Bool.and_true]
    cases set.isEmpty <;> rfl

/-! ### Memory -/

/-- Nothing is remembered of a site that has to be matched again. -/
theorem Calm.known_nil (h : Calm g tokens read weight context w base t)
    (hp : g.pattern? id = some p) (hnone : t.replay? ⟨i, p.recognizer⟩ context = none) :
    (t.memo.getD ⟨i, p.recognizer⟩ .empty).Faithful ∧
      (t.memo.getD ⟨i, p.recognizer⟩ .empty).toList = [] := by
  rw [h.replay_eq] at hnone
  rw [Std.TreeMap.getD_eq_getD_getElem?]
  cases hmemo : t.memo[(⟨i, p.recognizer⟩ : Site)]? with
  | none => exact ⟨ResultSet.faithful_empty, rfl⟩
  | some set =>
    simp only [hmemo, ite_eq_left_iff, reduceCtorEq, imp_false, Bool.not_eq_true,
      Bool.not_eq_false] at hnone
    exact ⟨(h.exact hp hmemo).1, by simpa [ResultSet.isEmpty, ResultSet.toList] using hnone⟩

/-! ### One call -/

/-- Inside a call, what weighs less than the called pattern may be touched. -/
theorem Calm.enter (hg : g.Closed) (hl : g.DistinctLabels)
    (h : Calm g tokens read weight context w base t) (hp : g.pattern? id = some p)
    (hlt : weight id i < w) {store : Store}
    (henter : Store.enter context ⟨i, p.recognizer⟩ (t.counts.getD ⟨i, p.recognizer⟩ 0 + 1)
      t.store = (inner, store)) :
    Calm g tokens read weight inner (weight id i) (t.entered ⟨i, p.recognizer⟩ store)
      (t.entered ⟨i, p.recognizer⟩ store) := by
  have hself : (t.entered ⟨i, p.recognizer⟩ store).counts.getD ⟨i, p.recognizer⟩ 0 =
      t.counts.getD ⟨i, p.recognizer⟩ 0 + 1 := by
    rw [counts_entered, if_pos rfl]
  obtain ⟨hsound, hgrows, hdepths⟩ :=
    h.sound.enter context ⟨i, p.recognizer⟩ (t.counts.getD ⟨i, p.recognizer⟩ 0 + 1)
  have hcontext := Store.enter_store t.store context ⟨i, p.recognizer⟩
    (t.counts.getD ⟨i, p.recognizer⟩ 0 + 1)
  rw [henter] at hsound hgrows hdepths hcontext
  dsimp only at hsound hgrows hdepths hcontext
  -- what the path has entered before is still heavy, and has not been entered again
  have hold : ∀ map : RecursionMap, (∀ entry ∈ map, Heavy g weight w entry.1 ∧
      entry.2 = base.counts.getD entry.1 0) → ∀ entry ∈ map,
        Heavy g weight (weight id i) entry.1 ∧
          entry.2 = (t.entered ⟨i, p.recognizer⟩ store).counts.getD entry.1 0 := by
    intro map hmap entry hentry
    obtain ⟨hheavy, hdepth⟩ := hmap entry hentry
    refine ⟨hheavy.mono hlt.le, ?_⟩
    rw [counts_entered, if_neg (hheavy.ne hg hl hp hlt), hdepth, (h.frame hheavy).1]
  refine ⟨hsound, fun hq hset => ?_, ?_, fun e he => ?_, fun _ => ⟨rfl, rfl⟩,
    fun {id' p' j} hq hlt' hcount => ?_⟩
  · exact ⟨(h.exact hq hset).1, (h.exact hq hset).2.reads_mono h.sound hgrows⟩
  · have hold : t.store.DepthsLe fun site =>
        (t.entered ⟨i, p.recognizer⟩ store).counts.getD site 0 :=
      Store.DepthsLe.mono h.depths (counts_le_entered t ⟨i, p.recognizer⟩ store)
    intro n map
    exact hdepths (fun site => (t.entered ⟨i, p.recognizer⟩ store).counts.getD site 0) hold hself.ge
  · rcases hcontext with ⟨-, -, hinner⟩ | ⟨map, hmap, hstore, hinner⟩
    · rw [hinner] at he
      rcases List.mem_cons.1 he with rfl | he
      · exact ⟨[], hsound.map_empty, fun _ hentry => nomatch hentry⟩
      · obtain ⟨map, hmap, hentries⟩ := h.context e he
        exact ⟨map, hgrows.maps hmap, hold map hentries⟩
    · rw [hinner] at he
      rcases Context.mem_replace he with he | rfl
      · obtain ⟨map, hmap, hentries⟩ := h.context e he
        exact ⟨map, hgrows.maps hmap, hold map hentries⟩
      · obtain ⟨map', hmap', hentries⟩ := h.context _ (Context.mem_of_at? hmap)
        have hnew : store.maps.get? (t.store.maps.intern (RecursionMap.insert ⟨i, p.recognizer⟩
              (t.counts.getD ⟨i, p.recognizer⟩ 0 + 1) (t.store.map map))).1 =
            some (RecursionMap.insert ⟨i, p.recognizer⟩
              (t.counts.getD ⟨i, p.recognizer⟩ 0 + 1) (t.store.map map)) := by
          rw [hstore]
          exact Interner.get?_intern_self _ h.sound.maps _
        refine ⟨_, hnew, fun entry hentry => ?_⟩
        rw [Store.map, Interner.get_eq_of_get? hmap'] at hentry
        rcases RecursionMap.mem_insert_cases hentry with rfl | hentry
        · exact ⟨⟨id, p, hp, rfl, le_rfl⟩, hself.symm⟩
        · exact hold map' hentries entry hentry
  · have hne : (⟨j, p'.recognizer⟩ : Site) ≠ ⟨i, p.recognizer⟩ :=
      fun heq => (Heavy.ne (w := weight id i) hg hl ⟨id, p, hp, rfl, le_rfl⟩ hq hlt') heq.symm
    rw [counts_entered, if_neg hne] at hcount
    exact h.settled hq (hlt'.trans hlt) hcount

/-- What comes of a call is remembered exactly. -/
theorem Calm.record (hg : g.Closed) (hl : g.DistinctLabels) (hdistinct : read.Distinct)
    (h : Calm g tokens read weight context w base t) (hp : g.pattern? id = some p)
    (hlt : weight id i < w) (hnone : t.replay? ⟨i, p.recognizer⟩ context = none) {store : Store}
    (hgrows : t.store.Grows u.store)
    (hu : Calm g tokens read weight inner (weight id i) (t.entered ⟨i, p.recognizer⟩ store) u)
    {results : List ResultId}
    (hresults : u.store.Lists (u.store.Reads g tokens id) results (read id i)) :
    Calm g tokens read weight context w base (u.record ⟨i, p.recognizer⟩ results) := by
  have hself : Heavy g weight (weight id i) ⟨i, p.recognizer⟩ := ⟨id, p, hp, rfl, le_rfl⟩
  have hmemo (site : Site) : (t.entered ⟨i, p.recognizer⟩ store).memo[site]? = t.memo[site]? := rfl
  have hknown : u.memo.getD ⟨i, p.recognizer⟩ .empty = t.memo.getD ⟨i, p.recognizer⟩ .empty := by
    simp only [Std.TreeMap.getD_eq_getD_getElem?, (hu.frame hself).2, hmemo]
  obtain ⟨hfaithful, hnil⟩ := h.known_nil hp hnone
  refine ⟨hu.sound, fun {id' p' j set} hq hset => ?_, hu.depths, fun e he => ?_,
    fun {site} hheavy => ?_, fun {id' p' j} hq hlt' hcount => ?_⟩
  · by_cases heq : (⟨j, p'.recognizer⟩ : Site) = ⟨i, p.recognizer⟩
    · -- the site itself: nothing was known before
      injection heq with hj hrecognizer
      obtain rfl : id' = id := hl.eq_of_recognizer_eq hg.id_eq hq hp hrecognizer
      obtain rfl : p' = p := Option.some.inj (hq.symm.trans hp)
      rw [hj, memo_record_self, hknown] at hset
      rw [← Option.some.inj hset, hj]
      refine ⟨hfaithful.insertAll _, ?_⟩
      have hold : u.store.Lists (u.store.Reads (ν := ν) g tokens id')
          (t.memo.getD ⟨i, p'.recognizer⟩ .empty).toList [] := by
        rw [hnil]
        exact Store.lists_nil _
      have hnodup : (([] ++ read id' i).map Prod.fst).Nodup := hdistinct id' i
      have hunique : ∀ r (y y' : Tree ν × Nat), u.store.Reads g tokens id' r y →
          u.store.Reads g tokens id' r y' → y.1 = y'.1 := fun _ _ _ => Store.Reads.unique
      exact hold.insertAll hfaithful hunique hresults.of_successes hnodup
    · rw [memo_record_ne u heq] at hset
      exact hu.exact hq hset
  · obtain ⟨map, hmap, hentries⟩ := h.context e he
    exact ⟨map, hgrows.maps hmap, hentries⟩
  · have hne := hheavy.ne hg hl hp hlt
    obtain ⟨hcounts, hmemo'⟩ := hu.frame (hheavy.mono hlt.le)
    rw [counts_record, hcounts, counts_entered, if_neg hne, memo_record_ne u hne, hmemo', hmemo]
    exact h.frame hheavy
  · by_cases heq : (⟨j, p'.recognizer⟩ : Site) = ⟨i, p.recognizer⟩
    · rw [heq]
      exact ⟨_, memo_record_self u _ results⟩
    · rw [memo_record_ne u heq]
      by_cases hlight : weight id' j < weight id i
      · exact hu.settled hq hlight hcount
      · have hheavy : Heavy g weight (weight id i) ⟨j, p'.recognizer⟩ :=
          ⟨id', p', hq, rfl, not_lt.1 hlight⟩
        obtain ⟨hcounts, hmemo'⟩ := hu.frame hheavy
        rw [counts_record, hcounts, counts_entered, if_neg heq] at hcount
        rw [hmemo', hmemo]
        exact h.settled hq hlt' hcount

/-! ### Calls that lead apart -/

/-- No watched call is made twice: calls lead to their own calls and not to themselves, and no two
calls of a pattern lead to the same. -/
structure Readings.Scatters (read : Readings ν) (g : Grammar) (size : Nat)
    (watched : Call → Prop) (leads : Call → Call → Prop) : Prop where
  refl : ∀ {c}, watched c → leads c c
  step : ∀ {id p i c d}, g.pattern? id = some p → i ≤ size → c ∈ p.calls g size read i →
    watched d → leads c d → leads (id, i) d ∧ d ≠ (id, i)
  apart : ∀ {id p i}, g.pattern? id = some p → i ≤ size →
    (p.calls g size read i).Pairwise fun c c' => ∀ d, watched d → leads c d → ¬ leads c' d

/-- The site of a call that comes to nothing, and is not watched. -/
def Readings.Unwatched (read : Readings ν) (g : Grammar) (size : Nat) (watched : Call → Prop)
    (site : Site) : Prop :=
  site.index ≤ size ∧ ∃ id p, g.pattern? id = some p ∧ site.recognizer = p.recognizer ∧
    p.kind.isBounded = true ∧ read id site.index = [] ∧ ¬ watched (id, site.index)

/-- None of these calls has been made. -/
def Tables.Fresh (g : Grammar) (Z : Call → Prop) (t : Tables) : Prop :=
  ∀ id p i, g.pattern? id = some p → Z (id, i) → t.counts.getD ⟨i, p.recognizer⟩ 0 = 0

theorem Tables.Fresh.mono {Z Z' : Call → Prop} (h : t.Fresh g Z) (hZ : ∀ c, Z' c → Z c) :
    t.Fresh g Z' :=
  fun id p i hp hc => h id p i hp (hZ _ hc)

theorem Tables.Fresh.entered (hg : g.Closed) (hl : g.DistinctLabels) {Z : Call → Prop}
    (h : t.Fresh g Z) (hp : g.pattern? id = some p) (store : Store) (hne : ¬ Z (id, i)) :
    (t.entered ⟨i, p.recognizer⟩ store).Fresh g Z := by
  intro id' p' j hq hc
  have hsite : (⟨j, p'.recognizer⟩ : Site) ≠ ⟨i, p.recognizer⟩ := by
    intro heq
    injection heq with hj hrecognizer
    obtain rfl : id' = id := hl.eq_of_recognizer_eq hg.id_eq hq hp hrecognizer
    exact hne (hj ▸ hc)
  rw [counts_entered, if_neg hsite]
  exact h id' p' j hq hc

theorem Tables.Fresh.record {Z : Call → Prop} (h : t.Fresh g Z) (site : Site)
    (results : List ResultId) : (t.record site results).Fresh g Z := by
  intro id p i hp hc
  rw [counts_record]
  exact h id p i hp hc

theorem Tables.Stable.fresh {Inv : Tables → Prop} (hInv : Tables.Stable Inv) (Z : Call → Prop) :
    Tables.Stable fun t => Inv t ∧ t.Fresh g Z where
  sound h := hInv.sound h.1
  withStore h hextends := ⟨hInv.withStore h.1 hextends, h.2⟩

/-! ### All calls -/

/-- Calls of what is not a pattern come to nothing. -/
theorem answers_of_none {fault : Site → Prop} {Pre Inv : Tables → Prop}
    (hp : g.pattern? id = none) (ys : List (Tree ν × Nat)) :
    Answers g tokens fault Pre Inv context id i ys := by
  refine fun t _ => ⟨fun hyields => ?_, fun hfaults => ?_⟩
  · cases hyields <;> simp_all
  · cases hfaults <;> simp_all

/-- Calls that are made one after the other, if each of them makes nothing but what it leads to. -/
theorem answersAll_scattered {fault : Site → Prop} {Inv : Tables → Prop}
    (hInv : Tables.Stable Inv) {Z : Call → Prop} {calls : List Call}
    (hcalls : ∀ c ∈ calls, ∀ Z' : Call → Prop, (∀ d, Z' d → watched d ∧ ¬ leads c d) →
      Answers g tokens fault (fun t => Inv t ∧ t.Fresh g fun d => watched d ∧ leads c d ∨ Z' d)
        (fun t => Inv t ∧ t.Fresh g Z') context c.1 c.2 (read c.1 c.2))
    (hapart : calls.Pairwise fun c c' => ∀ d, watched d → leads c d → ¬ leads c' d)
    (hZ : ∀ d, Z d → watched d ∧ ∀ c ∈ calls, ¬ leads c d) :
    AnswersAll g tokens fault context read calls
      (fun t => Inv t ∧ t.Fresh g fun d => watched d ∧ (∃ c ∈ calls, leads c d) ∨ Z d)
      (fun t => Inv t ∧ t.Fresh g Z) := by
  induction calls with
  | nil =>
    have hnone : (fun d => watched d ∧ (∃ c ∈ ([] : List Call), leads c d) ∨ Z d) = Z := by
      simp
    rw [hnone]
    exact .nil (hInv.fresh Z)
  | cons c later ih =>
    obtain ⟨hc, hlater⟩ := List.forall_mem_cons.1 hcalls
    obtain ⟨hapart, hapartLater⟩ := List.pairwise_cons.1 hapart
    refine .cons (hInv.fresh _) ((hc (fun d => watched d ∧ (∃ c ∈ later, leads c d) ∨ Z d)
      fun d hd => ?_).mono (fun t ht => ⟨ht.1, ht.2.mono fun d hd => ?_⟩) fun _ h => h)
      (ih hlater hapartLater fun d hd => (hZ d hd).imp_right fun h c hc =>
        h c (List.mem_cons_of_mem _ hc))
    · rcases hd with ⟨hd, c', hc', hleads⟩ | hd
      · exact ⟨hd, fun h => hapart c' hc' d hd h hleads⟩
      · exact (hZ d hd).imp_right fun h => h c List.mem_cons_self
    · rcases hd with ⟨hd, hleads⟩ | ⟨hd, c', hc', hleads⟩ | hd
      · exact .inl ⟨hd, c, List.mem_cons_self, hleads⟩
      · exact .inl ⟨hd, c', List.mem_cons_of_mem c hc', hleads⟩
      · exact .inr hd

/-- Every call lists what its pattern matches.  It does not give up at calls that are watched: they
have not been made before. -/
theorem answers_exact (hg : g.Closed) (hl : g.DistinctLabels)
    (hweight : g.Weighted tokens.size weight) (hsolves : read.Solves g tokens)
    (hforward : read.Forward g tokens.size) (hdistinct : read.Distinct)
    (hscatters : read.Scatters g tokens.size watched leads) (context : Context)
    (base : Tables) (hi : i ≤ tokens.size) (hlt : weight id i < w) {Z : Call → Prop}
    (hZ : ∀ d, Z d → watched d ∧ ¬ leads (id, i) d) :
    Answers g tokens (read.Unwatched g tokens.size watched)
      (fun t => Calm g tokens read weight context w base t ∧
        t.Fresh g fun d => watched d ∧ leads (id, i) d ∨ Z d)
      (fun t => Calm g tokens read weight context w base t ∧ t.Fresh g Z)
      context id i (read id i) := by
  induction hn : weight id i using Nat.strong_induction_on
    generalizing id i context w base Z with
  | _ n ih =>
    subst hn
    cases hp : g.pattern? id with
    | none => exact answers_of_none hp _
    | some p =>
      rintro t ⟨ht, hfresh⟩
      have hZfresh : t.Fresh g Z := hfresh.mono fun _ => .inr
      refine ensures_call hp (fun results hresults => ?_) (fun hnone hbounded hcount => ?_)
        fun hnone _ inner store henter => ?_
      · -- what is remembered is exact
        rw [ht.replay_eq] at hresults
        split at hresults
        · rename_i set hset
          split at hresults
          · cases hresults
          · rw [← Option.some.inj hresults]
            exact ⟨⟨ht, hZfresh⟩, .refl _, (ht.exact hp hset).2⟩
        · cases hresults
      · -- a pattern that has been tried and is not remembered to match does not
        obtain ⟨set, hset⟩ := ht.settled hp hlt (by omega)
        obtain ⟨hfaithful, hnil⟩ := ht.known_nil hp hnone
        rw [Std.TreeMap.getD_eq_getD_getElem?, hset, Option.getD_some] at hnil
        have hread := (ht.exact hp hset).2.reads
        rw [hnil] at hread
        have hread : read id i = [] := List.forall₂_nil_left_iff.1 hread
        refine ⟨fun _ => ⟨hi, id, p, hp, rfl, hbounded, hread, fun hwatched => ?_⟩,
          fun map failure store hmap hfailure => ?_⟩
        · rw [hfresh id p i hp (.inl ⟨hwatched, hscatters.refl hwatched⟩)] at hcount
          exact Nat.not_lt_zero _ hcount
        · obtain ⟨failure', store', k, heq, hextends, -, hresult⟩ :=
            ht.sound.failure_eq .infiniteRecursion i map
          rw [hfailure] at heq
          cases heq
          rw [hread]
          exact ⟨⟨calm_stable.withStore ht hextends, hZfresh⟩, hextends.grows,
            (Store.lists_nil _).cons_failed ⟨k, _, _, hresult⟩⟩
      · have hinner := ht.enter hg hl hp hlt henter
        have hentered : t.store.Grows (t.entered ⟨i, p.recognizer⟩ store).store := by
          have hgrows := (ht.sound.enter context ⟨i, p.recognizer⟩
            (t.counts.getD ⟨i, p.recognizer⟩ 0 + 1)).2.1
          rwa [henter] at hgrows
        have hstable : Tables.Stable (Calm g tokens read weight inner (weight id i)
            (t.entered ⟨i, p.recognizer⟩ store)) := calm_stable
        have hZcalls : ∀ d, Z d → watched d ∧ ∀ c ∈ p.calls g tokens.size read i, ¬ leads c d :=
          fun d hd => (hZ d hd).imp_right fun h c hc hleads =>
            h (hscatters.step hp hi hc (hZ d hd).1 hleads).1
        have hcalls : AnswersAll g tokens (read.Unwatched g tokens.size watched) inner read
            (p.calls g tokens.size read i) _ _ :=
          answersAll_scattered hstable (fun c hc Z' hZ' => ?_) (hscatters.apart hp hi) hZcalls
        · refine (readings_ensures hg hp hforward hdistinct hi hcalls
            ⟨hinner, ?_⟩).mono fun results u hu => ?_
          · -- the call itself is not among what its calls lead to
            refine (hfresh.mono fun d hd => ?_).entered hg hl hp store fun hd => ?_
            · exact hd.imp_left fun ⟨hd, c, hc, hleads⟩ =>
                ⟨hd, (hscatters.step hp hi hc hd hleads).1⟩
            · rcases hd with ⟨hd, c, hc, hleads⟩ | hd
              · exact (hscatters.step hp hi hc hd hleads).2 rfl
              · exact (hZ _ hd).2 (hscatters.refl (hZ _ hd).1)
          · have hread : p.readings g tokens read i = read id i := by
              rw [hsolves id i hi, hp]
            have hresults := hread ▸ hu.lists
            exact ⟨⟨ht.record hg hl hdistinct hp hlt hnone (hentered.trans hu.grows) hu.inv.1
              hresults, hu.inv.2.record _ _⟩, hentered.trans hu.grows, hresults⟩
        · obtain ⟨hj, hcall⟩ := p.calls_forward hp hforward hi c hc
          by_cases hchild : c.1 < g.patterns.size
          · have hless := hweight hchild hj hcall
            exact ih _ hless inner _ hj hless hZ' rfl
          · exact answers_of_none (Array.getElem?_eq_none (Nat.not_lt.1 hchild)) _

theorem calm_empty (w : Nat) :
    Calm (ν := ν) g tokens read weight [] w Tables.empty Tables.empty := by
  have hmaps {n : Nat} {map : RecursionMap}
      (h : Tables.empty.store.maps.get? n = some map) : map = [] := by
    rcases Interner.get?_intern_cases Interner.empty ([] : RecursionMap) h with h | ⟨rfl, -⟩
    · simp [Interner.empty, Interner.get?] at h
    · rfl
  refine ⟨Store.sound_empty, fun _ hset => ?_, fun hmap entry hentry => ?_,
    List.forall_mem_nil _, fun _ => ⟨rfl, rfl⟩, fun _ _ hcount => ?_⟩
  · simp [Tables.empty] at hset
  · rw [hmaps hmap] at hentry
    cases hentry
  · simp [Tables.empty] at hcount

end

/-! ### Recognition -/

section

variable {τ ν : Type} [Token τ ν] {g : Grammar} {rank : PatternId → Nat}

theorem Grammar.Ranked.noThunkCycle (hrank : g.Ranked rank) : g.NoThunkCycle := by
  refine noThunkCycle_of_rank rank fun id body hrefers => ?_
  obtain ⟨p, rule, hp, hkind, hbody⟩ := hrefers
  have hwrapped : p.kind.wrapped? g = some (.thunk, body) := by
    rw [hkind, PatternKind.wrapped?, hbody]
    rfl
  exact hrank (.wrapped hp hwrapped)

/-- The parser answers what the patterns make of each other's matches, gives up at a call that is
not watched, or does not have enough fuel. -/
theorem Readings.Scatters.parsesTo_cases {read : Readings ν} {tokens : Array τ}
    {watched : Call → Prop} {leads : Call → Call → Prop}
    (hscatters : read.Scatters g tokens.size watched leads) (hsolves : read.Solves g tokens)
    (hforward : read.Forward g tokens.size) (hdistinct : read.Distinct) (hg : g.Closed)
    (hl : g.DistinctLabels) (hrank : g.Ranked rank) {id : PatternId} (hid : id < g.patterns.size)
    (config : ParserConfig) :
    ParsesTo g config id tokens (read id 0) ∨
      (∃ site, read.Unwatched g tokens.size watched site ∧ GivesUp g config id tokens site) ∨
      recognize g config id tokens = .error .outOfFuel := by
  obtain ⟨weight, hweight⟩ := hrank.exists_weighted tokens.size
  have hcall := answers_exact hg hl hweight hsolves hforward hdistinct hscatters [] .empty
    (Nat.zero_le _) (Nat.lt_succ_self (weight id 0)) (Z := fun _ => False) nofun .empty
    ⟨calm_empty _, fun _ _ _ _ _ => by simp [Tables.empty]⟩
  exact ReversibleGrammar.parsesTo_cases hg config hid (calm_stable.fresh _) (hdistinct id 0) hcall

/-- Nothing is watched. -/
theorem Readings.scatters_nothing (read : Readings ν) (g : Grammar) (size : Nat) :
    read.Scatters g size (fun _ => False) fun _ _ => False where
  refl h := h
  step _ _ _ h := h.elim
  apart _ _ := List.pairwise_of_forall fun _ _ _ h => h.elim

/-- The parser answers what the patterns make of each other's matches, gives up, or does not have
enough fuel. -/
theorem Readings.Solves.parsesTo_cases {read : Readings ν} {tokens : Array τ}
    (hsolves : read.Solves g tokens) (hg : g.Closed) (hl : g.DistinctLabels)
    (hrank : g.Ranked rank) {id : PatternId} (hid : id < g.patterns.size)
    (config : ParserConfig) :
    ParsesTo g config id tokens (read id 0) ∨
      (∃ site, True ∧ GivesUp g config id tokens site) ∨
      recognize g config id tokens = .error .outOfFuel := by
  obtain ⟨weight, hweight⟩ := hrank.exists_weighted tokens.size
  obtain ⟨read', hsolves', hforward, hdistinct⟩ := hweight.exists_solution
  rw [hsolves.unique hsolves' hweight (Nat.zero_le _)]
  rcases (read'.scatters_nothing g tokens.size).parsesTo_cases hsolves' hforward hdistinct hg hl
    hrank hid config with h | ⟨site, -, h⟩ | hout
  · exact .inl h
  · exact .inr (.inl ⟨site, trivial, h⟩)
  · exact .inr (.inr hout)

/-- If every call that may come to nothing is watched, it answers that with enough fuel. -/
theorem Readings.Scatters.exists_parsesTo {read : Readings ν} {tokens : Array τ}
    {watched : Call → Prop} {leads : Call → Call → Prop}
    (hscatters : read.Scatters g tokens.size watched leads)
    (hwatched : ∀ site, ¬ read.Unwatched g tokens.size watched site)
    (hsolves : read.Solves g tokens) (hforward : read.Forward g tokens.size)
    (hdistinct : read.Distinct) (hg : g.Closed) (hl : g.DistinctLabels) (hrank : g.Ranked rank)
    {id : PatternId} (hid : id < g.patterns.size) :
    ∃ fuel, ∀ config : ParserConfig, fuel ≤ config.fuel →
      ParsesTo g config id tokens (read id 0) := by
  obtain ⟨fuel, hfuel⟩ := exists_recognize_fuel hg hrank.noThunkCycle hid tokens
  refine ⟨fuel, fun config hle => ?_⟩
  rcases hscatters.parsesTo_cases hsolves hforward hdistinct hg hl hrank hid config with
    h | ⟨site, hsite, -⟩ | hout
  · exact h
  · exact absurd hsite (hwatched site)
  · exact absurd hout (hfuel config hle)

/-- With enough fuel, it answers that or gives up. -/
theorem Readings.Solves.exists_fuel {read : Readings ν} {tokens : Array τ}
    (hsolves : read.Solves g tokens) (hg : g.Closed) (hl : g.DistinctLabels)
    (hrank : g.Ranked rank) {id : PatternId} (hid : id < g.patterns.size) :
    ∃ fuel, ∀ config : ParserConfig, fuel ≤ config.fuel →
      ParsesTo g config id tokens (read id 0) ∨ ∃ site, GivesUp g config id tokens site := by
  obtain ⟨fuel, hfuel⟩ := exists_recognize_fuel hg hrank.noThunkCycle hid tokens
  refine ⟨fuel, fun config hle => ?_⟩
  rcases hsolves.parsesTo_cases hg hl hrank hid config with h | ⟨site, -, h⟩ | hout
  · exact .inl h
  · exact .inr ⟨site, h⟩
  · exact absurd hout (hfuel config hle)

/-- Without left recursion, the patterns of a grammar determine each other's matches, and the
parser answers them in order, neither more nor less, unless it gives up: what it remembers, tries
again or cuts off makes no difference. -/
theorem recognition_exact (hg : g.Built) (hl : g.DistinctLabels) (hrank : g.Ranked rank)
    {id : PatternId} (hid : id < g.size) (tokens : Array τ) :
    ∃ read : Readings ν, read.Solves g tokens ∧
      (∀ read' : Readings ν, read'.Solves g tokens →
        ∀ id i, i ≤ tokens.size → read' id i = read id i) ∧
      ∃ fuel, ∀ config : ParserConfig, fuel ≤ config.fuel →
        ParsesTo g config id tokens (read id 0) ∨ ∃ site, GivesUp g config id tokens site := by
  obtain ⟨weight, hweight⟩ := hrank.exists_weighted tokens.size
  obtain ⟨read, hsolves, -, -⟩ := hweight.exists_solution
  refine ⟨read, hsolves, fun read' hsolves' id i hi => hsolves'.unique hsolves hweight hi, ?_⟩
  exact hsolves.exists_fuel hg.closed hl hrank hid

end

theorem Grammar.distinctLabels_runs : runs.DistinctLabels :=
  distinctLabels_of_unlabelled (by simp [runs])

/-- On `a a`, the parser answers what the patterns of the right-recursive runs make of each other's
matches. -/
theorem recognition_exact_runs :
    ∃ read : Readings String, read.Solves Grammar.runs #["a", "a"] ∧
      (∀ read' : Readings String, read'.Solves Grammar.runs #["a", "a"] →
        ∀ id i, i ≤ 2 → read' id i = read id i) ∧
      ∃ fuel, ∀ config : ParserConfig, fuel ≤ config.fuel →
        ParsesTo Grammar.runs config 3 #["a", "a"] (read 3 0) ∨
          ∃ site, GivesUp Grammar.runs config 3 #["a", "a"] site :=
  recognition_exact Grammar.built_runs Grammar.distinctLabels_runs Grammar.ranked_runs (by decide)
    #["a", "a"]

end ReversibleGrammar
