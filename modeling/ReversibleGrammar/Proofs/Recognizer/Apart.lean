/-
Calls that leave the rest of the tables alone.

What is known of the tables mostly does not depend on a few sites, so that it stays
known while a call changes what is said about these.

* `Tables.Apart` — tables that come later, and are the same apart from some sites;
* `Tables.Recalls` — what is remembered of a site are its matches, and none of them are
  held back;
* `consume_call`, `reference_call` — calls of a token pattern, and of a reference to one.
-/
import ReversibleGrammar.Proofs.Recognizer.Construct
import ReversibleGrammar.Proofs.Recognizer.Termination

namespace ReversibleGrammar

/-- The second tables come later, and say the same apart from the sites of `P`. -/
structure Tables.Apart (P : Site → Prop) (t u : Tables) : Prop where
  sound : u.store.Sound
  grows : t.store.Grows u.store
  counts : ∀ {site}, ¬ P site → u.counts.getD site 0 = t.counts.getD site 0
  memo : ∀ {site}, ¬ P site → u.memo[site]? = t.memo[site]?
  cutoffs : ∀ {site}, ¬ P site → u.cutoffs[site]? = t.cutoffs[site]?

/-- What is claimed of the tables does not depend on the sites of `P`. -/
structure Tables.Ignores (P : Site → Prop) (Inv : Tables → Prop) : Prop where
  sound : ∀ {t : Tables}, Inv t → t.store.Sound
  apart : ∀ {t u : Tables}, Inv t → t.Apart P u → Inv u

section

variable {P Q : Site → Prop} {Inv : Tables → Prop} {t u v : Tables} {site : Site}

theorem Tables.Apart.refl (P : Site → Prop) (hs : t.store.Sound) : t.Apart P t :=
  ⟨hs, .refl _, fun _ => rfl, fun _ => rfl, fun _ => rfl⟩

theorem Tables.Apart.mono (hPQ : ∀ site, P site → Q site) (h : t.Apart P u) : t.Apart Q u where
  sound := h.sound
  grows := h.grows
  counts hsite := h.counts fun hP => hsite (hPQ _ hP)
  memo hsite := h.memo fun hP => hsite (hPQ _ hP)
  cutoffs hsite := h.cutoffs fun hP => hsite (hPQ _ hP)

theorem Tables.Apart.trans (h : t.Apart P u) (h' : u.Apart P v) : t.Apart P v where
  sound := h'.sound
  grows := h.grows.trans h'.grows
  counts hsite := (h'.counts hsite).trans (h.counts hsite)
  memo hsite := (h'.memo hsite).trans (h.memo hsite)
  cutoffs hsite := (h'.cutoffs hsite).trans (h.cutoffs hsite)

theorem apart_withStore (P : Site → Prop) {s : Store} (h : t.store.Extends s) :
    t.Apart P { t with store := s } :=
  ⟨h.sound, h.grows, fun _ => rfl, fun _ => rfl, fun _ => rfl⟩

theorem counts_entered_ne {other : Site} (h : other ≠ site) (store : Store) :
    (t.entered site store).counts.getD other 0 = t.counts.getD other 0 := by
  rw [counts_entered, if_neg h]

/-- Entering a site says something about the site only. -/
theorem apart_entered (hs : t.store.Sound) {context inner : Context} {depth : Nat} {store : Store}
    (henter : Store.enter context site depth t.store = (inner, store)) :
    t.Apart (fun other => other = site) (t.entered site store) := by
  obtain ⟨hsound, hgrows, -⟩ := hs.enter context site depth
  rw [henter] at hsound hgrows
  exact ⟨hsound, hgrows, fun hne => counts_entered_ne hne store, fun _ => rfl, fun _ => rfl⟩

theorem cutoffs_record_ne {other : Site} (h : other ≠ site) (results : List ResultId) :
    (t.record site results).cutoffs[other]? = t.cutoffs[other]? := by
  unfold Tables.record
  dsimp only
  split
  · rw [Std.TreeMap.getElem?_insert,
      if_neg fun hcmp => h (Std.LawfulEqCmp.eq_of_compare hcmp).symm]
  · rfl

/-- Remembering results says something about the site only. -/
theorem apart_record (hs : t.store.Sound) (results : List ResultId) :
    t.Apart (fun other => other = site) (t.record site results) :=
  ⟨hs, .refl _, fun _ => rfl, fun hne => memo_record_ne t hne results,
    fun hne => cutoffs_record_ne hne results⟩

theorem Tables.Ignores.mono (h : Tables.Ignores Q Inv) (hPQ : ∀ site, P site → Q site) :
    Tables.Ignores P Inv where
  sound := h.sound
  apart ht happart := h.apart ht (happart.mono hPQ)

theorem Tables.ignores_sound (P : Site → Prop) :
    Tables.Ignores P fun t => t.store.Sound where
  sound h := h
  apart _ happart := happart.sound

theorem Tables.Ignores.stable (h : Tables.Ignores P Inv) : Tables.Stable Inv where
  sound := h.sound
  withStore ht hextends := h.apart ht (apart_withStore P hextends)

end

/-! ### Single results -/

section

variable {τ ν : Type} [Token τ ν] (g : Grammar) (tokens : Array τ)

/-- What is remembered of the site are the matches `ys`, and none of them are held back. -/
structure Tables.Recalls (t : Tables) (id : PatternId) (site : Site) (ys : List (Tree ν × Nat)) :
    Prop where
  exact : ∀ {set}, t.memo[site]? = some set → set.Faithful ∧ set.toList.length ≤ ys.length ∧
    t.store.Lists (t.store.Reads g tokens id) set.toList ys
  free : ys ≠ [] → t.cutoffs[site]? = none

/-- All that is claimed of the site is that its matches are recalled. -/
structure Tables.Recalling (Inv : Tables → Prop) (id : PatternId) (site : Site)
    (ys : List (Tree ν × Nat)) : Prop where
  sound : ∀ {t : Tables}, Inv t → t.store.Sound
  recalls : ∀ {t : Tables}, Inv t → t.Recalls g tokens id site ys
  apart : ∀ {t u : Tables}, Inv t → t.Apart (fun other => other = site) u →
    u.Recalls g tokens id site ys → Inv u

end

section

variable {τ ν : Type} [Token τ ν] {g : Grammar} {tokens : Array τ} {fault : Site → Prop}
variable {Inv : Tables → Prop} {context : Context} {id : PatternId} {p : Pattern} {i : Nat}
variable {site : Site} {ys : List (Tree ν × Nat)} {t u : Tables}

theorem Tables.Recalls.of_grows (h : t.Recalls g tokens id site ys) (hs : t.store.Sound)
    (hgrows : t.store.Grows u.store) (hmemo : u.memo[site]? = t.memo[site]?)
    (hcutoffs : u.cutoffs[site]? = t.cutoffs[site]?) : u.Recalls g tokens id site ys where
  exact hset := by
    rw [hmemo] at hset
    obtain ⟨hfaithful, hlength, hlists⟩ := h.exact hset
    exact ⟨hfaithful, hlength, hlists.reads_mono hs hgrows⟩
  free hys := hcutoffs.trans (h.free hys)

theorem Tables.Recalling.stable (h : Tables.Recalling g tokens Inv id site ys) :
    Tables.Stable Inv where
  sound := h.sound
  withStore ht hextends := h.apart ht (apart_withStore _ hextends)
    ((h.recalls ht).of_grows (h.sound ht) hextends.grows rfl rfl)

/-- Nothing is remembered of a site that has to be matched again. -/
theorem Tables.Recalls.known_nil (h : t.Recalls g tokens id site ys) (hs : t.store.Sound)
    (hnone : t.replay? site context = none) :
    (t.memo.getD site .empty).Faithful ∧ (t.memo.getD site .empty).toList = [] := by
  rw [Std.TreeMap.getD_eq_getD_getElem?]
  cases hmemo : t.memo[site]? with
  | none => exact ⟨ResultSet.faithful_empty, rfl⟩
  | some set =>
    obtain ⟨hfaithful, hlength, -⟩ := h.exact hmemo
    refine ⟨hfaithful, ?_⟩
    by_contra hne
    -- then there are matches, and the context allows them
    have hys : ys ≠ [] := by
      rintro rfl
      exact hne (List.length_eq_zero_iff.1 (Nat.le_zero.1 hlength))
    have hempty : set.isEmpty = false := by
      simpa [ResultSet.isEmpty, ResultSet.toList] using hne
    have hmap : t.store.map emptyMap = [] := Interner.get_eq_of_get? hs.map_empty
    simp [Tables.replay?, hmemo, h.free hys, hempty, hmap] at hnone

theorem lastCutoff?_singleton {s : Store} {r : ResultId} {f : FragmentId} {stop : Nat}
    (h : s.Matched r f stop) : lastCutoff? s [r] = none := by
  simp [lastCutoff?, h.result_eq]

/-- A single result that is remembered is recalled. -/
theorem Tables.Recalls.record (h : u.Recalls g tokens id site ys) (hs : u.store.Sound)
    (hfaithful : (u.memo.getD site .empty).Faithful)
    (hnil : (u.memo.getD site .empty).toList = []) {results : List ResultId}
    (hlength : results.length = 1)
    (hresults : u.store.Lists (u.store.Reads g tokens id) results ys) :
    (u.record site results).Recalls g tokens id site ys := by
  obtain ⟨r, rfl⟩ := List.length_eq_one_iff.1 hlength
  constructor
  · intro set hset
    rw [memo_record_self] at hset
    have hnodup : ((u.memo.getD site .empty).toList ++ successesOf u.store [r]).Nodup := by
      rw [hnil]
      exact (List.nodup_singleton r).sublist List.filter_sublist
    have hlist := hfaithful.toList_insertAll hnodup
    rw [hnil, List.nil_append] at hlist
    rw [← Option.some.inj hset]
    refine ⟨hfaithful.insertAll _, ?_, ?_⟩
    · rw [hlist]
      exact hresults.reads.length_eq.le
    · rw [hlist]
      exact hresults.of_successes
  · intro hys
    obtain ⟨y, ys', rfl⟩ := List.exists_cons_of_ne_nil hys
    rcases hresults.cons_cases hs with ⟨f, stop, -, -, hmatched, -⟩ | ⟨-, hnone⟩
    · have hcutoff := lastCutoff?_singleton hmatched
      obtain ⟨store, memo, counts, cutoffs⟩ := u
      simp only [Tables.record, hcutoff]
      exact h.free hys
    · cases hnone.reads

/-- A call of an unbounded pattern with a single result lists its matches, if evaluating it does. -/
theorem single_ensures (hInv : Tables.Recalling g tokens Inv id ⟨i, p.recognizer⟩ ys)
    (hp : g.pattern? id = some p) (hunbounded : p.kind.isBounded = false) (hys : ys.length ≤ 1)
    (hevaluate : ∀ (inner : Context) (t : Tables), Inv t →
      p.Ensures g (.ofTokens tokens) fault i inner t fun results u =>
        t.Answered g tokens (fun u => Inv u ∧
          u.memo[(⟨i, p.recognizer⟩ : Site)]? = t.memo[(⟨i, p.recognizer⟩ : Site)]?) id ys
            results u ∧ results.length = 1)
    (context : Context) (ht : Inv t) :
    (Task.call id i context).Ensures g (.ofTokens tokens) fault t fun results u =>
      t.Answered g tokens Inv id ys results u ∧ results.length = 1 := by
  have hs := hInv.sound ht
  have hrecalls := hInv.recalls ht
  refine ensures_call hp (fun results hreplay => ?_) (fun _ hbounded => ?_)
    fun hnone _ inner store henter => ?_
  · obtain ⟨set, hset, rfl⟩ := replay?_eq_some hreplay
    obtain ⟨hfaithful, hlength, hlists⟩ := hrecalls.exact hset
    refine ⟨⟨ht, .refl _, hlists⟩, ?_⟩
    have hne : set.toList ≠ [] := by
      intro hnil
      have hempty : set.isEmpty = true := by simpa [ResultSet.isEmpty, ResultSet.toList] using hnil
      simp [Tables.replay?, hset, hempty] at hreplay
    have hpos := List.length_pos_iff.2 hne
    omega
  · rw [hunbounded] at hbounded
    cases hbounded
  · have happart := apart_entered hs henter
    have hentered : Inv (t.entered ⟨i, p.recognizer⟩ store) :=
      hInv.apart ht happart (hrecalls.of_grows hs happart.grows rfl rfl)
    refine (hevaluate inner _ hentered).mono fun results u hu => ?_
    obtain ⟨⟨⟨hu, hmemo⟩, hgrows, hlists⟩, hlength⟩ := hu
    have hknown : u.memo.getD ⟨i, p.recognizer⟩ .empty = t.memo.getD ⟨i, p.recognizer⟩ .empty := by
      simp only [Std.TreeMap.getD_eq_getD_getElem?, hmemo]
      rfl
    obtain ⟨hfaithful, hnil⟩ := hrecalls.known_nil hs hnone
    rw [← hknown] at hfaithful hnil
    have hus := hInv.sound hu
    have hrecord := (hInv.recalls hu).record hus hfaithful hnil hlength hlists
    exact ⟨⟨hInv.apart hu (apart_record hus results) hrecord, happart.grows.trans hgrows, hlists⟩,
      hlength⟩

theorem length_readings_consume {terminal : String} (hkind : p.kind = .consume terminal)
    (read : Readings ν) (i : Nat) : (p.readings g tokens read i).length ≤ 1 := by
  simp only [Pattern.readings, hkind]
  split
  · split <;> simp
  · simp

/-- A token pattern that is called lists its match, if there is one. -/
theorem consume_call {terminal : String} (hp : g.pattern? id = some p)
    (hkind : p.kind = .consume terminal) {read : Readings ν}
    (hInv : Tables.Recalling g tokens Inv id ⟨i, p.recognizer⟩ (p.readings g tokens read i))
    (context : Context) (ht : Inv t) :
    (Task.call id i context).Ensures g (.ofTokens tokens) fault t fun results u =>
      t.Answered g tokens Inv id (p.readings g tokens read i) results u ∧ results.length = 1 := by
  refine single_ensures hInv hp (by rw [hkind]; rfl) (length_readings_consume hkind read i)
    (fun inner t ht => ?_) context ht
  refine consume_ensures ⟨fun hu => hInv.sound hu.1, fun hu hextends => ?_⟩ hp hkind read ⟨ht, rfl⟩
  exact ⟨hInv.stable.withStore hu.1 hextends, hu.2⟩

/-- A reference to a token pattern that is called lists its match, if there is one. -/
theorem reference_call {child : PatternId} {q : Pattern} {terminal : String} {wrapper : Wrapper}
    (hp : g.pattern? id = some p) (hkind : p.kind.wrapped? g = some (wrapper, child))
    (hunbounded : p.kind.isBounded = false) (hq : g.pattern? child = some q)
    (hconsume : q.kind = .consume terminal) (hne : p.recognizer ≠ q.recognizer)
    {read : Readings ν}
    (hInv : Tables.Recalling g tokens Inv id ⟨i, p.recognizer⟩
      ((q.readings g tokens read i).map fun y => (.wrapped p y.1, y.2)))
    (hchild : Tables.Recalling g tokens Inv child ⟨i, q.recognizer⟩ (q.readings g tokens read i))
    (context : Context) (ht : Inv t) :
    (Task.call id i context).Ensures g (.ofTokens tokens) fault t fun results u =>
      t.Answered g tokens Inv id ((q.readings g tokens read i).map fun y => (.wrapped p y.1, y.2))
        results u ∧ results.length = 1 := by
  have hlength : (q.readings g tokens read i).length ≤ 1 :=
    length_readings_consume hconsume read i
  refine single_ensures hInv hp hunbounded (by rwa [List.length_map]) (fun inner t ht => ?_)
    context ht
  -- the call of the token leaves the site of the reference alone
  let Inv' : Tables → Prop := fun u =>
    Inv u ∧ u.memo[(⟨i, p.recognizer⟩ : Site)]? = t.memo[(⟨i, p.recognizer⟩ : Site)]?
  have hsite : (⟨i, p.recognizer⟩ : Site) ≠ ⟨i, q.recognizer⟩ :=
    fun heq => hne (congrArg Site.recognizer heq)
  have hInv' : Tables.Recalling g tokens Inv' child ⟨i, q.recognizer⟩
      (q.readings g tokens read i) :=
    ⟨fun hu => hchild.sound hu.1, fun hu => hchild.recalls hu.1, fun hu happart hrecalls =>
      ⟨hchild.apart hu.1 happart hrecalls, (happart.memo hsite).trans hu.2⟩⟩
  refine ⟨.wait child i inner (.wrapped wrapper), t.store, evaluate_wrapped hkind _ i inner t.store,
    ensures_wait (consume_call hq hconsume hInv' inner ⟨ht, rfl⟩) fun results u hu => ?_⟩
  refine (resume_wrapped_ensures hInv'.stable hp hkind hu.1).mono fun made v hv => ?_
  exact ⟨hv.1, hv.2.trans hu.2⟩

end

/-! ### Tokens and references to tokens -/

section

variable {τ ν : Type} [Token τ ν] (g : Grammar) (tokens : Array τ)

/-- What is remembered of some patterns are their matches, which take two calls at most, and the
rest of the tables is as claimed. -/
structure Tables.Plain (ids : List PatternId) (Rest : Tables → Prop) (t : Tables) : Prop where
  recalls : ∀ id ∈ ids, ∀ i, t.Recalls g tokens id ⟨i, .pattern id⟩ (g.readings tokens 2 id i)
  rest : Rest t

end

section

variable {τ ν : Type} [Token τ ν] {g : Grammar} {tokens : Array τ} {fault : Site → Prop}
variable {ids : List PatternId} {Rest : Tables → Prop} {id : PatternId} {p : Pattern}

/-- Nothing is remembered at the start. -/
theorem Tables.plain_empty (h : Rest .empty) : Tables.Plain g tokens ids Rest .empty where
  recalls id _ i := by
    have hmemo : (Tables.empty.memo[(⟨i, .pattern id⟩ : Site)]? : Option _) = none :=
      Std.TreeMap.getElem?_emptyc
    have hcutoffs : (Tables.empty.cutoffs[(⟨i, .pattern id⟩ : Site)]? : Option _) = none :=
      Std.TreeMap.getElem?_emptyc
    refine ⟨fun hset => ?_, fun _ => hcutoffs⟩
    rw [hmemo] at hset
    cases hset
  rest := h

/-- What does not depend on the sites of the patterns leaves them to be recalled. -/
theorem Tables.Plain.recalling
    (hRest : Tables.Ignores (fun site => ∃ id ∈ ids, site.recognizer = .pattern id) Rest)
    (hid : id ∈ ids) (i : Nat) :
    Tables.Recalling g tokens (Tables.Plain g tokens ids Rest) id ⟨i, .pattern id⟩
      (g.readings tokens 2 id i) where
  sound h := hRest.sound h.rest
  recalls h := h.recalls id hid i
  apart {t u} h happart hrecalls := by
    refine ⟨fun id' hid' i' => ?_, hRest.apart h.rest (happart.mono fun site hsite => ?_)⟩
    · by_cases heq : (⟨i', .pattern id'⟩ : Site) = ⟨i, .pattern id⟩
      · injection heq with hi hpattern
        injection hpattern with hpattern
        rw [hi, hpattern]
        exact hrecalls
      · exact (h.recalls id' hid' i').of_grows (hRest.sound h.rest) happart.grows
          (happart.memo heq) (happart.cutoffs heq)
    · exact ⟨id, hid, congrArg Site.recognizer hsite⟩

/-- What is remembered of the patterns stays, whatever becomes of the rest. -/
theorem Tables.Plain.of_apart {P : Site → Prop} {Rest' : Tables → Prop} {t u : Tables}
    (h : Tables.Plain g tokens ids Rest t) (hs : t.store.Sound) (happart : t.Apart P u)
    (hP : ∀ id ∈ ids, ∀ i, ¬ P ⟨i, .pattern id⟩) (hrest : Rest' u) :
    Tables.Plain g tokens ids Rest' u where
  recalls id hid i := (h.recalls id hid i).of_grows hs happart.grows (happart.memo (hP id hid i))
    (happart.cutoffs (hP id hid i))
  rest := hrest

theorem Tables.Plain.ignores {P : Site → Prop} (hRest : Tables.Ignores P Rest)
    (hP : ∀ id ∈ ids, ∀ i, ¬ P ⟨i, .pattern id⟩) :
    Tables.Ignores P (Tables.Plain g tokens ids Rest) where
  sound h := hRest.sound h.rest
  apart h happart := h.of_apart (hRest.sound h.rest) happart hP (hRest.apart h.rest happart)

theorem readings_consume_congr {terminal : String} (hkind : p.kind = .consume terminal)
    (read read' : Readings ν) (i : Nat) :
    p.readings g tokens read i = p.readings g tokens read' i := by
  simp only [Pattern.readings, hkind]

theorem Tables.Plain.consume_answers
    (hRest : Tables.Ignores (fun site => ∃ id ∈ ids, site.recognizer = .pattern id) Rest)
    (hid : id ∈ ids) (hp : g.pattern? id = some p) (hrecognizer : p.recognizer = .pattern id)
    {terminal : String} (hkind : p.kind = .consume terminal) (context : Context) (i : Nat) :
    Answers g tokens fault (Tables.Plain g tokens ids Rest) (Tables.Plain g tokens ids Rest)
      context id i (g.readings tokens 2 id i) := by
  intro t ht
  have hread : g.readings tokens 2 id i = p.readings g tokens (g.readings tokens 1) i := by
    simp only [Grammar.readings, hp]
  have hInv : Tables.Recalling g tokens (Tables.Plain g tokens ids Rest) id ⟨i, .pattern id⟩
      (g.readings tokens 2 id i) := Tables.Plain.recalling hRest hid i
  rw [hread, ← hrecognizer] at hInv
  rw [hread]
  exact (consume_call hp hkind hInv context ht).mono fun _ _ h => h.1

theorem Tables.Plain.reference_answers
    (hRest : Tables.Ignores (fun site => ∃ id ∈ ids, site.recognizer = .pattern id) Rest)
    (hid : id ∈ ids) (hp : g.pattern? id = some p) (hrecognizer : p.recognizer = .pattern id)
    {rule : RuleId} (hkind : p.kind = .thunk rule) {child : PatternId} {q : Pattern}
    (hbody : g.ruleBody? rule = some child) (hchild : child ∈ ids)
    (hq : g.pattern? child = some q) (hchildRecognizer : q.recognizer = .pattern child)
    {terminal : String} (hconsume : q.kind = .consume terminal) (hne : id ≠ child)
    (context : Context) (i : Nat) :
    Answers g tokens fault (Tables.Plain g tokens ids Rest) (Tables.Plain g tokens ids Rest)
      context id i (g.readings tokens 2 id i) := by
  intro t ht
  have hwrapped : p.kind.wrapped? g = some (.thunk, child) := by
    rw [hkind, PatternKind.wrapped?, hbody]
    rfl
  have hreadChild : g.readings tokens 2 child i = q.readings g tokens (g.readings tokens 1) i := by
    simp only [Grammar.readings, hq]
  have hread : g.readings tokens 2 id i =
      (q.readings g tokens (g.readings tokens 1) i).map fun y => (.wrapped p y.1, y.2) := by
    rw [← hreadChild]
    simp only [Grammar.readings, hp, hq, Pattern.readings_wrapped hwrapped]
    rw [readings_consume_congr hconsume]
  have hInv : Tables.Recalling g tokens (Tables.Plain g tokens ids Rest) id ⟨i, .pattern id⟩
      (g.readings tokens 2 id i) := Tables.Plain.recalling hRest hid i
  have hInvChild : Tables.Recalling g tokens (Tables.Plain g tokens ids Rest) child
      ⟨i, .pattern child⟩ (g.readings tokens 2 child i) := Tables.Plain.recalling hRest hchild i
  rw [hread, ← hrecognizer] at hInv
  rw [hreadChild, ← hchildRecognizer] at hInvChild
  rw [hread]
  have hsites : p.recognizer ≠ q.recognizer := by
    rw [hrecognizer, hchildRecognizer]
    exact fun heq => hne (by injection heq)
  exact (reference_call hp hwrapped (by rw [hkind]; rfl) hq hconsume hsites hInv hInvChild context
    ht).mono fun _ _ h => h.1

end

end ReversibleGrammar
