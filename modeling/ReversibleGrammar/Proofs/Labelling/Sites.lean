/-
Sites of a grammar with labels and without.

A label stands for its pattern wherever a recognition tells sites apart.  If no two patterns share
one, sites with labels and without correspond one to one; only their order may differ, and with it
the order of the entries in a recursion map.

* `Grammar.Labelling` — a grammar and the same one with labels;
* `Grammar.SameSite` — a site of the one and the site of the other;
* `RecursionMap.Twin` — the same depths, of such sites;
* `Twin.eq_iff`, `Twin.allows_eq` — maps are told apart, and allow each other, alike.
-/
import ReversibleGrammar.Proofs.Recognizer.Meaning

namespace ReversibleGrammar

/-! ### Labels -/

/-- The pattern without its label. -/
def Pattern.unlabelled (p : Pattern) : Pattern := { p with label := none }

/-- The first grammar is the second one without labels. -/
structure Grammar.Labelling (g g' : Grammar) : Prop where
  patterns : g.patterns = g'.patterns.map Pattern.unlabelled
  rules : g.rules = g'.rules

namespace Grammar

variable {g g' : Grammar}

theorem Labelling.pattern?_eq (h : g.Labelling g') (id : PatternId) :
    g.pattern? id = (g'.pattern? id).map Pattern.unlabelled := by
  simp only [pattern?, h.patterns, Array.getElem?_map]

theorem Labelling.ruleBody?_eq (h : g.Labelling g') (rule : RuleId) :
    g.ruleBody? rule = g'.ruleBody? rule := by
  simp only [ruleBody?, h.rules]

/-- The sites are of one pattern at one position, told by its number and by its recognizer. -/
inductive SameSite (g : Grammar) : Site → Site → Prop
  | intro (index : Nat) {id : PatternId} {p : Pattern} (hp : g.pattern? id = some p) :
      SameSite g ⟨index, .pattern id⟩ ⟨index, p.recognizer⟩

theorem SameSite.index_eq {site site' : Site} (h : g.SameSite site site') :
    site.index = site'.index := by
  cases h
  rfl

/-- A pattern without a label is recognized under its number. -/
theorem Labelling.sameSite (h : g.Labelling g') (hg : g.Closed) {id : PatternId} {p : Pattern}
    (hp : g'.pattern? id = some p) (index : Nat) :
    g'.SameSite ⟨index, p.unlabelled.recognizer⟩ ⟨index, p.recognizer⟩ := by
  have hid : p.unlabelled.id = id := hg.id_eq id _ (by
    show g.pattern? id = _
    rw [h.pattern?_eq, hp]
    rfl)
  rw [show p.unlabelled.recognizer = .pattern id from congrArg Recognizer.pattern hid]
  exact .intro index hp

/-- Sites correspond one to one. -/
theorem Labelling.biUnique (h : g.Labelling g') (hg : g.Closed) (hl : g'.DistinctLabels) :
    Relator.BiUnique g'.SameSite := by
  have hids : ∀ (i : Nat) (p : Pattern), g'.pattern? i = some p → p.id = i := fun i p hp =>
    hg.id_eq i p.unlabelled (by
      show g.pattern? i = _
      rw [h.pattern?_eq, hp]
      rfl)
  constructor
  · rintro _ _ _ ⟨index, hp⟩ hsite
    generalize hrecognizer : Site.mk index _ = site' at hsite
    obtain ⟨index', hq⟩ := hsite
    obtain ⟨rfl, heq⟩ := Site.mk.inj hrecognizer
    rw [hl.eq_of_recognizer_eq hids hp hq heq]
  · rintro _ _ _ ⟨index, hp⟩ hsite
    generalize hrecognizer : Site.mk index _ = site at hsite
    obtain ⟨index', hq⟩ := hsite
    obtain ⟨rfl, heq⟩ := Site.mk.inj hrecognizer
    obtain rfl := Recognizer.pattern.inj heq
    obtain rfl := Option.some.inj (hp.symm.trans hq)
    rfl

end Grammar

/-! ### Recursion maps -/

namespace RecursionMap

/-- The sites are in order. -/
def Sorted (map : RecursionMap) : Prop := map.Pairwise fun a b => compare a.1 b.1 = .lt

variable {map : RecursionMap} {site : Site} {depth : Nat}

theorem compare_self_ne_lt (site : Site) : compare site site ≠ .lt := by
  rw [show compare site site = .eq from Std.ReflCmp.compare_self]
  nofun

theorem get?_insert (map : RecursionMap) (site other : Site) (depth : Nat) :
    RecursionMap.get? other (RecursionMap.insert site depth map) =
      if site = other then some depth else RecursionMap.get? other map := by
  induction map with
  | nil => rfl
  | cons entry rest ih =>
    obtain ⟨first, old⟩ := entry
    unfold RecursionMap.insert
    split
    · rfl
    · rename_i heq
      obtain rfl := Std.LawfulEqCmp.eq_of_compare heq
      simp only [RecursionMap.get?]
      split <;> rfl
    · rename_i hgt
      have hne : site ≠ first := by
        rintro rfl
        exact compare_self_ne_lt site (Std.OrientedCmp.lt_of_gt hgt)
      simp only [RecursionMap.get?, ih]
      split
      · rename_i hfirst
        rw [if_neg fun h => hne (h.trans hfirst.symm)]
      · rfl

theorem Sorted.insert (h : Sorted map) (site : Site) (depth : Nat) :
    Sorted (RecursionMap.insert site depth map) := by
  induction map with
  | nil => exact List.pairwise_singleton _ _
  | cons entry rest ih =>
    obtain ⟨first, old⟩ := entry
    obtain ⟨hfirst, hrest⟩ := List.pairwise_cons.1 h
    unfold RecursionMap.insert
    split
    · rename_i hlt
      refine List.pairwise_cons.2 ⟨List.forall_mem_cons.2 ⟨hlt, fun entry hentry => ?_⟩, h⟩
      exact Std.TransCmp.lt_trans hlt (hfirst entry hentry)
    · rename_i heq
      obtain rfl := Std.LawfulEqCmp.eq_of_compare heq
      exact List.pairwise_cons.2 ⟨hfirst, hrest⟩
    · rename_i hgt
      refine List.pairwise_cons.2 ⟨fun entry hentry => ?_, ih hrest⟩
      rcases mem_insert_cases hentry with rfl | hentry
      · exact Std.OrientedCmp.lt_of_gt hgt
      · exact hfirst entry hentry

/-- The entries of a sorted map are its depths. -/
theorem Sorted.get?_eq_some_iff (h : Sorted map) :
    RecursionMap.get? site map = some depth ↔ (site, depth) ∈ map := by
  induction map with
  | nil => simp [RecursionMap.get?]
  | cons entry rest ih =>
    obtain ⟨first, old⟩ := entry
    obtain ⟨hfirst, hrest⟩ := List.pairwise_cons.1 h
    rw [RecursionMap.get?, List.mem_cons, Prod.mk.injEq]
    split
    · rename_i heq
      subst heq
      have hnot : (first, depth) ∉ rest := fun hmem =>
        compare_self_ne_lt first (hfirst _ hmem)
      simp [hnot, eq_comm]
    · rename_i hne
      rw [ih hrest]
      simp [Ne.symm hne]

/-- Sorted maps with the same depths are equal. -/
theorem Sorted.ext {map map' : RecursionMap} (h : Sorted map) (h' : Sorted map')
    (heq : ∀ site, RecursionMap.get? site map = RecursionMap.get? site map') : map = map' := by
  have hnot (a b : Site × Nat) (hlt : compare a.1 b.1 = .lt) (hgt : compare b.1 a.1 = .lt) :
      False := compare_self_ne_lt a.1 (Std.TransCmp.lt_trans hlt hgt)
  have hnodup {map : RecursionMap} (h : Sorted map) : map.Nodup := by
    refine List.Pairwise.imp (fun {a b} hlt => ?_) h
    rintro rfl
    exact compare_self_ne_lt a.1 hlt
  have hperm : map.Perm map' := (List.perm_ext_iff_of_nodup (hnodup h) (hnodup h')).2
    fun (site, depth) => by rw [← h.get?_eq_some_iff, ← h'.get?_eq_some_iff, heq site]
  exact hperm.eq_of_pairwise (fun a b _ _ hlt hgt => (hnot a b hlt hgt).elim) h h'

/-- The first map has the depths of the second one, at sites that correspond. -/
structure Twin (g : Grammar) (map map' : RecursionMap) : Prop where
  sorted : Sorted map
  sorted' : Sorted map'
  get?_eq : ∀ {site site'}, g.SameSite site site' →
    RecursionMap.get? site map = RecursionMap.get? site' map'
  known : ∀ {site depth}, RecursionMap.get? site map = some depth → ∃ site', g.SameSite site site'
  known' : ∀ {site' depth}, RecursionMap.get? site' map' = some depth →
    ∃ site, g.SameSite site site'

variable {g : Grammar} {a a' b b' : RecursionMap}

theorem twin_nil (g : Grammar) : Twin g [] [] where
  sorted := List.Pairwise.nil
  sorted' := List.Pairwise.nil
  get?_eq _ := rfl
  known h := nomatch h
  known' h := nomatch h

theorem Twin.insert (hsites : Relator.BiUnique g.SameSite) (h : Twin g a a') {site site' : Site}
    (hsite : g.SameSite site site') (depth : Nat) :
    Twin g (RecursionMap.insert site depth a) (RecursionMap.insert site' depth a') where
  sorted := h.sorted.insert site depth
  sorted' := h.sorted'.insert site' depth
  get?_eq {other other'} hother := by
    rw [get?_insert, get?_insert, h.get?_eq hother]
    exact if_congr (Relator.rel_eq hsites hsite hother) rfl rfl
  known {other depth'} hother := by
    rw [get?_insert] at hother
    split at hother
    · rename_i heq
      exact ⟨site', heq ▸ hsite⟩
    · exact h.known hother
  known' {other depth'} hother := by
    rw [get?_insert] at hother
    split at hother
    · rename_i heq
      exact ⟨site, heq ▸ hsite⟩
    · exact h.known' hother

/-- Maps are told apart alike. -/
theorem Twin.eq_iff (h : Twin g a a') (h' : Twin g b b') : a = b ↔ a' = b' := by
  constructor
  · rintro rfl
    refine h.sorted'.ext h'.sorted' fun site' => Option.ext fun depth => ?_
    constructor
    · intro hdepth
      obtain ⟨site, hsite⟩ := h.known' hdepth
      rwa [← h'.get?_eq hsite, h.get?_eq hsite]
    · intro hdepth
      obtain ⟨site, hsite⟩ := h'.known' hdepth
      rwa [← h.get?_eq hsite, h'.get?_eq hsite]
  · rintro rfl
    refine h.sorted.ext h'.sorted fun site => Option.ext fun depth => ?_
    constructor
    · intro hdepth
      obtain ⟨site', hsite⟩ := h.known hdepth
      rwa [h'.get?_eq hsite, ← h.get?_eq hsite]
    · intro hdepth
      obtain ⟨site', hsite⟩ := h'.known hdepth
      rwa [h.get?_eq hsite, ← h'.get?_eq hsite]

/-- A map allows another one if no site is deeper in that one. -/
theorem allows_iff {current recorded : RecursionMap} (h : Sorted recorded) :
    current.allows recorded = true ↔ ∀ site depth active,
      RecursionMap.get? site recorded = some depth → RecursionMap.get? site current = some active →
        depth ≤ active := by
  rw [allows, List.all_eq_true]
  constructor
  · intro hall site depth active hdepth hactive
    have hentry := hall (site, depth) (h.get?_eq_some_iff.1 hdepth)
    simpa [hactive] using hentry
  · rintro hall ⟨site, depth⟩ hentry
    cases hactive : RecursionMap.get? site current with
    | none => rfl
    | some active =>
      simpa [hactive] using hall site depth active (h.get?_eq_some_iff.2 hentry) hactive

/-- Maps allow each other alike. -/
theorem Twin.allows_eq (h : Twin g a a') (h' : Twin g b b') : a.allows b = a'.allows b' := by
  rw [Bool.eq_iff_iff, allows_iff h'.sorted, allows_iff h'.sorted']
  constructor
  · intro hall site' depth active hdepth hactive
    obtain ⟨site, hsite⟩ := h'.known' hdepth
    exact hall site depth active ((h'.get?_eq hsite).trans hdepth) ((h.get?_eq hsite).trans hactive)
  · intro hall site depth active hdepth hactive
    obtain ⟨site', hsite⟩ := h'.known hdepth
    exact hall site' depth active ((h'.get?_eq hsite).symm.trans hdepth)
      ((h.get?_eq hsite).symm.trans hactive)

end RecursionMap

end ReversibleGrammar
