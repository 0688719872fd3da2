/-
What constructs make of the results of their children.

Every construct remakes results one by one: a match becomes a larger match that
stops at the same position, and a failure stays as it is.

* `Store.Remade` — one result remade;
* `wrapResult_remade`, `extendSequence_remade`, … — the lists that the constructs give, as
  remade results in the order of those they were given.
-/
import ReversibleGrammar.Recognizer.Machine
import ReversibleGrammar.Proofs.Recognizer.ResultSet
import ReversibleGrammar.Proofs.Recognizer.Store

namespace ReversibleGrammar

namespace Store

variable {s t : Store} {id : ResultId}

/-- The number stands for a result. -/
def Known (s : Store) (id : ResultId) : Prop := ∃ r, s.results.get? id = some r

/-- The number stands for a match with a fragment. -/
def Matched (s : Store) (id : ResultId) (f : FragmentId) (stop : Nat) : Prop :=
  s.results.get? id = some ⟨.success f, stop, emptyMap⟩

/-- The number stands for a failure. -/
def Failed (s : Store) (id : ResultId) : Prop :=
  ∃ k stop map, s.results.get? id = some ⟨.failure k, stop, map⟩

/-- The number stands for a match with a fragment of this form. -/
def Made (s : Store) (id : ResultId) (fragment : Fragment) (stop : Nat) : Prop :=
  ∃ f, s.Matched id f stop ∧ s.fragments.get? f = some fragment

/-- The number stands for what was made of a match, or for the failure that there was instead. -/
def Remade (s : Store) (make : FragmentId → Fragment) (id made : ResultId) : Prop :=
  (∃ f stop, s.Matched id f stop ∧ s.Made made (make f) stop) ∨ s.Failed id ∧ made = id

theorem Grows.known (h : s.Grows t) (hid : s.Known id) : t.Known id :=
  hid.imp fun _ => h.results

theorem Grows.matched (h : s.Grows t) {f : FragmentId} {stop : Nat} (hid : s.Matched id f stop) :
    t.Matched id f stop :=
  h.results hid

theorem Grows.failed (h : s.Grows t) (hid : s.Failed id) : t.Failed id := by
  obtain ⟨k, stop, map, hid⟩ := hid
  exact ⟨k, stop, map, h.results hid⟩

theorem Grows.made (h : s.Grows t) {fragment : Fragment} {stop : Nat}
    (hid : s.Made id fragment stop) : t.Made id fragment stop := by
  obtain ⟨f, hmatched, hf⟩ := hid
  exact ⟨f, h.matched hmatched, h.fragments hf⟩

theorem Grows.remade (h : s.Grows t) {make : FragmentId → Fragment} {made : ResultId}
    (hid : s.Remade make id made) : t.Remade make id made := by
  rcases hid with ⟨f, stop, hmatched, hmade⟩ | ⟨hfailed, hid⟩
  · exact .inl ⟨f, stop, h.matched hmatched, h.made hmade⟩
  · exact .inr ⟨h.failed hfailed, hid⟩

theorem Matched.known {f : FragmentId} {stop : Nat} (h : s.Matched id f stop) : s.Known id :=
  ⟨_, h⟩

theorem Failed.known (h : s.Failed id) : s.Known id := by
  obtain ⟨k, stop, map, h⟩ := h
  exact ⟨_, h⟩

theorem Matched.result_eq {f : FragmentId} {stop : Nat} (h : s.Matched id f stop) :
    s.result id = ⟨.success f, stop, emptyMap⟩ :=
  Store.result_eq h

theorem Failed.result_eq (h : s.Failed id) :
    ∃ k stop map, s.result id = ⟨.failure k, stop, map⟩ := by
  obtain ⟨k, stop, map, h⟩ := h
  exact ⟨k, stop, map, Store.result_eq h⟩

/-- A result is a match or a failure. -/
theorem Sound.known_cases (hs : s.Sound) (h : s.Known id) :
    (∃ f stop, s.Matched id f stop) ∨ s.Failed id := by
  obtain ⟨⟨outcome, stop, map⟩, hr⟩ := h
  cases outcome with
  | success f =>
    obtain rfl : map = emptyMap := hs.map_eq hr rfl
    exact .inl ⟨f, stop, hr⟩
  | failure k => exact .inr ⟨k, stop, map, hr⟩

theorem Sound.exists_fragment (hs : s.Sound) {f : FragmentId} {stop : Nat}
    (h : s.Matched id f stop) : ∃ fragment, s.fragments.get? f = some fragment :=
  hs.fragment h rfl

theorem Remade.known {make : FragmentId → Fragment} {made : ResultId}
    (h : s.Remade make id made) : s.Known made := by
  rcases h with ⟨f, stop, -, g, hmade, -⟩ | ⟨hfailed, rfl⟩
  · exact hmade.known
  · exact hfailed.known

/-- Storing a match. -/
theorem Sound.made (hs : s.Sound) (fragment : Fragment)
    (hparts : ∀ q ∈ fragment.parts, ∃ part, s.fragments.get? q = some part) (stop : Nat) :
    ∃ id t, Store.success fragment stop emptyMap s = (id, t) ∧ s.Extends t ∧
      t.Made id fragment stop := by
  obtain ⟨id, t, f, h, hextends, hf, hid⟩ := hs.success_eq hparts stop
  exact ⟨id, t, h, hextends, f, hid, hf⟩

end Store

/-! ### Matches among results -/

section

variable {s t : Store}

theorem successesOf_cons_of_matched {id : ResultId} {f : FragmentId} {stop : Nat}
    (h : s.Matched id f stop) (ids : List ResultId) :
    successesOf s (id :: ids) = id :: successesOf s ids := by
  rw [successesOf, List.filter_cons_of_pos (by simp [h.result_eq])]
  rfl

theorem successesOf_cons_of_failed {id : ResultId} (h : s.Failed id) (ids : List ResultId) :
    successesOf s (id :: ids) = successesOf s ids := by
  obtain ⟨k, stop, map, h⟩ := h.result_eq
  rw [successesOf, List.filter_cons_of_neg (by simp [h])]
  rfl

/-- The failures among results. -/
def failuresAmong (s : Store) (ids : List ResultId) : List ResultId :=
  ids.filter fun id =>
    match (s.result id).outcome with
    | .success _ => false
    | .failure _ => true

theorem failuresAmong_cons_of_matched {id : ResultId} {f : FragmentId} {stop : Nat}
    (h : s.Matched id f stop) (ids : List ResultId) :
    failuresAmong s (id :: ids) = failuresAmong s ids := by
  rw [failuresAmong, List.filter_cons_of_neg (by simp [h.result_eq])]
  rfl

theorem failuresAmong_cons_of_failed {id : ResultId} (h : s.Failed id) (ids : List ResultId) :
    failuresAmong s (id :: ids) = id :: failuresAmong s ids := by
  obtain ⟨k, stop, map, h⟩ := h.result_eq
  rw [failuresAmong, List.filter_cons_of_pos (by simp [h])]
  rfl

theorem successesOf_append (s : Store) (ids ids' : List ResultId) :
    successesOf s (ids ++ ids') = successesOf s ids ++ successesOf s ids' :=
  List.filter_append ..

/-- Matches that are not in a set come after those that are. -/
theorem ResultSet.Faithful.successesOf_insertAll {set : ResultSet} (hset : set.Faithful)
    {ids : List ResultId} (h : (successesOf s set.toList ++ successesOf s ids).Nodup) :
    successesOf s (set.insertAll ids).toList = successesOf s set.toList ++ successesOf s ids := by
  induction ids generalizing set with
  | nil => simp [ResultSet.insertAll, successesOf]
  | cons id ids ih =>
    show successesOf s ((set.insert id).insertAll ids).toList = _
    have hcons : successesOf s (id :: ids) = successesOf s [id] ++ successesOf s ids :=
      successesOf_append s [id] ids
    -- a result that is in the set already is no match
    have hinsert : successesOf s (set.insert id).toList =
        successesOf s set.toList ++ successesOf s [id] := by
      rw [hset.toList_insert id]
      split
      · rename_i hmem
        by_cases hid : id ∈ successesOf s [id]
        · have hmem' : id ∈ successesOf s set.toList :=
            List.mem_filter.2 ⟨hmem, (List.mem_filter.1 hid).2⟩
          rw [hcons] at h
          exact absurd rfl ((List.nodup_append.1 h).2.2 id hmem' id (List.mem_append_left _ hid))
        · have hnil : successesOf s [id] = [] := by
            rw [successesOf, List.filter_eq_nil_iff]
            intro r hr hsuccess
            obtain rfl := List.mem_singleton.1 hr
            exact hid (List.mem_filter.2 ⟨hr, hsuccess⟩)
          rw [hnil, List.append_nil]
      · rw [successesOf_append]
    rw [ih (hset.insert id) (by rw [hinsert, List.append_assoc, ← hcons]; exact h), hinsert, hcons,
      List.append_assoc]

/-- A match among remade results was made of a match. -/
theorem exists_of_mem_successesOf {make : FragmentId → Fragment} {ids made : List ResultId}
    (h : List.Forall₂ (s.Remade make) ids made) {r : ResultId} (hr : r ∈ successesOf s made) :
    ∃ id ∈ ids, ∃ f stop, s.Matched id f stop ∧ s.Made r (make f) stop := by
  obtain ⟨hr, hsuccess⟩ := List.mem_filter.1 hr
  obtain ⟨id, hid, ⟨f, stop, hmatched, hmade⟩ | ⟨hfailed, rfl⟩⟩ := exists_of_forall₂_of_mem h hr
  · exact ⟨id, hid, f, stop, hmatched, hmade⟩
  · obtain ⟨k, stop, map, hk⟩ := hfailed.result_eq
    rw [hk] at hsuccess
    cases hsuccess

/-- What the matches of a list are does not change. -/
theorem successesOf_mono (hgrows : s.Grows t) {ids : List ResultId}
    (hids : ∀ id ∈ ids, s.Known id) : successesOf t ids = successesOf s ids := by
  refine List.filter_congr fun id hid => ?_
  obtain ⟨r, hr⟩ := hids id hid
  rw [Store.result_eq hr, Store.result_eq (hgrows.results hr)]

end

/-! ### Construct by construct -/

section

variable {s : Store}

/-- The results of a token pattern. -/
theorem matchToken_cases (hs : s.Sound) (input : Input) (terminal : String) (index : Nat) :
    ∃ id t, matchToken input terminal index s = (id, t) ∧ s.Extends t ∧
      if index < input.size ∧ input.is index terminal = true then
        t.Made id (.leaf (input.value index)) (index + 1)
      else
        ∃ k kind, t.results.get? id = some ⟨.failure k, index, emptyMap⟩ ∧
          t.failures.get? k = some kind ∧ kind ≠ .infiniteRecursion := by
  unfold matchToken
  by_cases hsize : index < input.size
  · by_cases his : input.is index terminal = true
    · rw [if_pos hsize, if_pos his]
      obtain ⟨id, t, h, hextends, hmade⟩ :=
        hs.made (.leaf (input.value index)) (by simp [Fragment.parts]) (index + 1)
      exact ⟨id, t, h, hextends, by rwa [if_pos ⟨hsize, his⟩]⟩
    · rw [if_pos hsize, if_neg his]
      obtain ⟨id, t, k, h, hextends, hkind, hr⟩ :=
        hs.failure_eq (.unexpectedToken terminal index) index emptyMap
      refine ⟨id, t, h, hextends, ?_⟩
      rw [if_neg (fun h => his h.2)]
      exact ⟨k, _, hr, hkind, by simp⟩
  · rw [if_neg hsize]
    obtain ⟨id, t, k, h, hextends, hkind, hr⟩ :=
      hs.failure_eq (.tokensExhausted terminal) index emptyMap
    refine ⟨id, t, h, hextends, ?_⟩
    rw [if_neg (fun h => hsize h.1)]
    exact ⟨k, _, hr, hkind, by simp⟩

theorem wrapResult_remade (wrapper : Wrapper) {ids : List ResultId} (hs : s.Sound)
    (hids : ∀ id ∈ ids, s.Known id) :
    ∃ made t, ids.mapM (wrapResult wrapper) s = (made, t) ∧ s.Extends t ∧
      List.Forall₂ (t.Remade (.wrapped wrapper)) ids made := by
  induction ids generalizing s with
  | nil => exact ⟨[], s, rfl, .refl hs, .nil⟩
  | cons id ids ih =>
    obtain ⟨id', t, h, hextends, hremade⟩ : ∃ id' t, wrapResult wrapper id s = (id', t) ∧
        s.Extends t ∧ t.Remade (.wrapped wrapper) id id' := by
      unfold wrapResult
      rcases hs.known_cases (hids id List.mem_cons_self) with ⟨f, stop, hid⟩ | hid
      · obtain ⟨id', t, h, hextends, hmade⟩ := hs.made (.wrapped wrapper f)
          (by simpa [Fragment.parts] using hs.exists_fragment hid) stop
        simp only [hid.result_eq]
        exact ⟨id', t, h, hextends, .inl ⟨f, stop, hextends.grows.matched hid, hmade⟩⟩
      · obtain ⟨k, stop, map, hk⟩ := hid.result_eq
        simp only [hk]
        exact ⟨id, s, rfl, .refl hs, .inr ⟨hid, rfl⟩⟩
    obtain ⟨made, u, h', hextends', hremade'⟩ := ih hextends.sound fun id' h =>
      hextends.grows.known (hids id' (List.mem_cons_of_mem id h))
    refine ⟨id' :: made, u, ?_, hextends.trans hextends',
      .cons (hextends'.grows.remade hremade) hremade'⟩
    rw [List.mapM_cons]
    simp only [bind, StateT.bind, h, h', pure, StateT.pure]

/-- An option drops failures. -/
theorem optionResults_remade {ids : List ResultId} (out : ResultSet) (hs : s.Sound)
    (hids : ∀ id ∈ ids, s.Known id) :
    ∃ made t, optionResults ids out s = (out.insertAll (successesOf t made), t) ∧ s.Extends t ∧
      List.Forall₂ (t.Remade .present) ids made := by
  induction ids generalizing s out with
  | nil => exact ⟨[], s, rfl, .refl hs, .nil⟩
  | cons id ids ih =>
    have hrest : ∀ id' ∈ ids, s.Known id' := fun id' h => hids id' (List.mem_cons_of_mem id h)
    unfold optionResults
    rcases hs.known_cases (hids id List.mem_cons_self) with ⟨f, stop, hid⟩ | hid
    · obtain ⟨id', t, h, hextends, hmade⟩ := hs.made (.present f)
        (by simpa [Fragment.parts] using hs.exists_fragment hid) stop
      obtain ⟨made, u, h', hextends', hremade⟩ := ih (out.insert id') hextends.sound
        fun id' h => hextends.grows.known (hrest id' h)
      have hmade := hextends'.grows.made hmade
      refine ⟨id' :: made, u, ?_, hextends.trans hextends', .cons (.inl ⟨f, stop,
        (hextends.trans hextends').grows.matched hid, hmade⟩) hremade⟩
      obtain ⟨g, hg, -⟩ := hmade
      simp only [hid.result_eq, h, h', successesOf_cons_of_matched hg]
      rfl
    · obtain ⟨k, stop, map, hk⟩ := hid.result_eq
      obtain ⟨made, t, h, hextends, hremade⟩ := ih out hs hrest
      have hfailed := hextends.grows.failed hid
      refine ⟨id :: made, t, ?_, hextends, .cons (.inr ⟨hfailed, rfl⟩) hremade⟩
      simp only [hk, h, successesOf_cons_of_failed hfailed]

/-- The first match of a list, with the failures before it added to those that there were. -/
theorem takeSuccess_cases {ids : List ResultId} (finished : ResultSet) (hs : s.Sound)
    (hids : ∀ id ∈ ids, s.Known id) :
    (takeSuccess s finished ids = (finished.insertAll ids, none) ∧ ∀ id ∈ ids, s.Failed id) ∨
    ∃ before id f stop rest, ids = before ++ id :: rest ∧ (∀ id' ∈ before, s.Failed id') ∧
      s.Matched id f stop ∧ takeSuccess s finished ids =
        (finished.insertAll before, some (⟨.success f, stop, emptyMap⟩, rest)) := by
  induction ids generalizing finished with
  | nil => exact .inl ⟨rfl, by simp⟩
  | cons id ids ih =>
    have hrest : ∀ id' ∈ ids, s.Known id' := fun id' h => hids id' (List.mem_cons_of_mem id h)
    unfold takeSuccess
    rcases hs.known_cases (hids id List.mem_cons_self) with ⟨f, stop, hid⟩ | hid
    · refine .inr ⟨[], id, f, stop, ids, rfl, by simp, hid, ?_⟩
      simp only [hid.result_eq]
      rfl
    · obtain ⟨k, stop, map, hk⟩ := hid.result_eq
      simp only [hk]
      rcases ih (finished.insert id) hrest with ⟨h, hfailed⟩ |
        ⟨before, id', f, stop, rest, rfl, hfailed, hmatched, h⟩
      · exact .inl ⟨h, List.forall_mem_cons.2 ⟨hid, hfailed⟩⟩
      · exact .inr ⟨id :: before, id', f, stop, rest, rfl,
          List.forall_mem_cons.2 ⟨hid, hfailed⟩, hmatched, h⟩

/-- A prefix of a sequence is extended by each result of its next child. -/
theorem extendSequence_remade {before : FragmentId} (index : Nat) {ids : List ResultId}
    (following : ResultSet) (hs : s.Sound)
    (hbefore : ∃ fragment, s.fragments.get? before = some fragment)
    (hids : ∀ id ∈ ids, s.Known id) :
    ∃ made t, extendSequence ⟨.success before, index, emptyMap⟩ ids following s =
        (following.insertAll made, t) ∧
      s.Extends t ∧ List.Forall₂ (t.Remade (.sequenceStep before)) ids made := by
  induction ids generalizing s following with
  | nil => exact ⟨[], s, rfl, .refl hs, .nil⟩
  | cons id ids ih =>
    have hrest : ∀ id' ∈ ids, s.Known id' := fun id' h => hids id' (List.mem_cons_of_mem id h)
    unfold extendSequence
    rcases hs.known_cases (hids id List.mem_cons_self) with ⟨f, stop, hid⟩ | hid
    · obtain ⟨id', t, h, hextends, hmade⟩ := hs.made (.sequenceStep before f)
        (by simpa [Fragment.parts] using ⟨hbefore, hs.exists_fragment hid⟩) stop
      obtain ⟨made, u, h', hextends', hremade⟩ := ih (following.insert id') hextends.sound
        (hbefore.imp fun _ => hextends.grows.fragments)
        fun id' h => hextends.grows.known (hrest id' h)
      refine ⟨id' :: made, u, ?_, hextends.trans hextends', .cons (.inl ⟨f, stop,
        (hextends.trans hextends').grows.matched hid, hextends'.grows.made hmade⟩) hremade⟩
      simp only [hid.result_eq, Store.mergeMaps_empty, h, h']
      rfl
    · obtain ⟨k, stop, map, hk⟩ := hid.result_eq
      obtain ⟨made, t, h, hextends, hremade⟩ := ih (following.insert id) hs hbefore hrest
      refine ⟨id :: made, t, ?_, hextends, .cons (.inr ⟨hextends.grows.failed hid, rfl⟩) hremade⟩
      simp only [hk, h]
      rfl

/-- A choice keeps the matches of an alternative apart from its failures. -/
theorem choiceResults_remade (index : Nat) {ids : List ResultId} (successes failures : ResultSet)
    (hs : s.Sound) (hids : ∀ id ∈ ids, s.Known id) :
    ∃ made t, choiceResults index ids successes failures s =
        ((successes.insertAll (successesOf t made), failures.insertAll (failuresAmong t made)), t) ∧
      s.Extends t ∧ List.Forall₂ (t.Remade (.choice index)) ids made := by
  induction ids generalizing s successes failures with
  | nil => exact ⟨[], s, rfl, .refl hs, .nil⟩
  | cons id ids ih =>
    have hrest : ∀ id' ∈ ids, s.Known id' := fun id' h => hids id' (List.mem_cons_of_mem id h)
    unfold choiceResults
    rcases hs.known_cases (hids id List.mem_cons_self) with ⟨f, stop, hid⟩ | hid
    · obtain ⟨id', t, h, hextends, hmade⟩ := hs.made (.choice index f)
        (by simpa [Fragment.parts] using hs.exists_fragment hid) stop
      obtain ⟨made, u, h', hextends', hremade⟩ := ih (successes.insert id') failures
        hextends.sound fun id' h => hextends.grows.known (hrest id' h)
      have hmade := hextends'.grows.made hmade
      refine ⟨id' :: made, u, ?_, hextends.trans hextends', .cons (.inl ⟨f, stop,
        (hextends.trans hextends').grows.matched hid, hmade⟩) hremade⟩
      obtain ⟨g, hg, -⟩ := hmade
      simp only [hid.result_eq, h, h', successesOf_cons_of_matched hg,
        failuresAmong_cons_of_matched hg]
      rfl
    · obtain ⟨k, stop, map, hk⟩ := hid.result_eq
      obtain ⟨made, t, h, hextends, hremade⟩ := ih successes (failures.insert id) hs hrest
      have hfailed := hextends.grows.failed hid
      refine ⟨id :: made, t, ?_, hextends, .cons (.inr ⟨hfailed, rfl⟩) hremade⟩
      simp only [hk, h, successesOf_cons_of_failed hfailed, failuresAmong_cons_of_failed hfailed]
      rfl

/-- The results without the matches that end where the item before them ended. -/
def progressing (s : Store) (mark : Nat) (isSeparator : Bool) (ids : List ResultId) :
    List ResultId :=
  ids.filter fun id => isSeparator || (s.result id).stop != mark

/-- The repetition with one part more among those found and those to extend. -/
def ManyFrame.add (frame : ManyFrame) (s : Store) (mark : Nat) (isSeparator : Bool)
    (id : ResultId) : ManyFrame :=
  if isSeparator then separateMany frame id mark else emitMany frame id (s.result id).stop

/-- A repetition with one part more. -/
def Fragment.manyStep (isSeparator : Bool) (before part : FragmentId) : Fragment :=
  if isSeparator then .manySeparator before part else .manyItem before part

/-- A state of a repetition is extended by each match of its next part that makes progress. -/
theorem extendMany_remade {before : FragmentId} (index mark : Nat)
    (isSeparator : Bool) {ids : List ResultId} (frame : ManyFrame) (hs : s.Sound)
    (hbefore : ∃ fragment, s.fragments.get? before = some fragment)
    (hids : ∀ id ∈ ids, s.Known id) :
    ∃ made t, extendMany ⟨.success before, index, emptyMap⟩ mark isSeparator ids frame s =
        ((successesOf t made).foldl (fun frame id => frame.add t mark isSeparator id) frame, t) ∧
      s.Extends t ∧
      List.Forall₂ (t.Remade (.manyStep isSeparator before)) (progressing t mark isSeparator ids)
        made := by
  induction ids generalizing s frame with
  | nil => exact ⟨[], s, rfl, .refl hs, .nil⟩
  | cons id ids ih =>
    have hrest : ∀ id' ∈ ids, s.Known id' := fun id' h => hids id' (List.mem_cons_of_mem id h)
    unfold extendMany
    rcases hs.known_cases (hids id List.mem_cons_self) with ⟨f, stop, hid⟩ | hid
    · by_cases hprogress : (!isSeparator && stop == mark) = true
      · obtain ⟨made, t, h, hextends, hremade⟩ := ih frame hs hbefore hrest
        refine ⟨made, t, ?_, hextends, ?_⟩
        · simp only [hid.result_eq, hprogress, if_true, h]
        · rw [progressing, List.filter_cons, if_neg]
          · exact hremade
          · simpa [(hextends.grows.matched hid).result_eq] using hprogress
      · obtain ⟨id', t, h, hextends, hmade⟩ := hs.made (.manyStep isSeparator before f)
          (by
            have hparts := And.intro hbefore (hs.exists_fragment hid)
            cases isSeparator <;> simpa [Fragment.manyStep, Fragment.parts] using hparts) stop
        obtain ⟨made, u, h', hextends', hremade⟩ := ih (frame.add t mark isSeparator id')
          hextends.sound (hbefore.imp fun _ => hextends.grows.fragments)
          fun id' h => hextends.grows.known (hrest id' h)
        have hmade' := hextends'.grows.made hmade
        refine ⟨id' :: made, u, ?_, hextends.trans hextends', ?_⟩
        · obtain ⟨g, hg, -⟩ := hmade
          have hadd : frame.add u mark isSeparator id' = frame.add t mark isSeparator id' := by
            simp only [ManyFrame.add, hg.result_eq, (hextends'.grows.matched hg).result_eq]
          rw [successesOf_cons_of_matched (hextends'.grows.matched hg), List.foldl_cons, hadd]
          simp only [hid.result_eq, Store.mergeMaps_empty, hprogress]
          cases isSeparator with
          | true =>
            simp only [Fragment.manyStep, ManyFrame.add, if_true] at h h' ⊢
            simp only [h, h']
            rfl
          | false =>
            simp only [Fragment.manyStep, ManyFrame.add, hg.result_eq] at h h' ⊢
            simp only [h]
            exact h'
        · have hid' := (hextends.trans hextends').grows.matched hid
          rw [progressing, List.filter_cons, if_pos]
          · exact .cons (.inl ⟨f, stop, hid', hmade'⟩) hremade
          · rw [hid'.result_eq]
            cases isSeparator with
            | true => rfl
            | false => simpa using hprogress
    · obtain ⟨k, stop, map, hk⟩ := hid.result_eq
      obtain ⟨made, t, h, hextends, hremade⟩ := ih frame hs hbefore hrest
      have hfailed := hextends.grows.failed hid
      by_cases hkept : (isSeparator || (t.result id).stop != mark) = true
      · refine ⟨id :: made, t, ?_, hextends, ?_⟩
        · simp only [hk, h, successesOf_cons_of_failed hfailed]
        · rw [progressing, List.filter_cons, if_pos hkept]
          exact .cons (.inr ⟨hfailed, rfl⟩) hremade
      · refine ⟨made, t, ?_, hextends, ?_⟩
        · simp only [hk, h]
        · rw [progressing, List.filter_cons, if_neg hkept]
          exact hremade

end

end ReversibleGrammar
