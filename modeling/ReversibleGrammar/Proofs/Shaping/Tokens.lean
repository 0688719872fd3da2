/-
Lexed tokens come back from their shapes.

The shape of a token is its text.  This is enough for a token that the lexer makes, without its
place: a token has one captured text or none, and its kind says which.

* `LexToken.Plain` — such tokens;
* `plain_of_mem_tokenizeDetached` — the tokens of a source are such tokens;
* `Plain.eq_terminalToken`, `Plain.shapeToken_tokenShape` — and come back.
-/
import ReversibleGrammar.Language.TokenCodec
import ReversibleGrammar.Proofs.Lexing.Scan

namespace ReversibleGrammar

/-- As many texts are captured as there are groups. -/
theorem Regex.length_groups_of_search? {r : Regex} {groups : Nat} {cs : List Char} {m : Match}
    (h : r.search? groups cs = some m) : m.groups.length = groups := by
  have hmatchAt {index : Nat} {before : Option Char} {cs : List Char}
      (h : r.matchAt? groups index before cs = some m) : m.groups.length = groups := by
    obtain ⟨stop, -, rfl⟩ := Option.map_eq_some_iff.1 h
    simp
  have hsearchFrom {index : Nat} {before : Option Char} {cs : List Char}
      (h : r.searchFrom? groups index before cs = some m) : m.groups.length = groups := by
    induction cs generalizing index before with
    | nil => exact hmatchAt h
    | cons c cs ih => exact (Option.or_eq_some_iff.1 h).elim hmatchAt fun h => ih h.2
  unfold search? at h
  split at h
  · exact hmatchAt h
  · exact hsearchFrom h

/-- The token has no place, and one text just if tokens of its kind carry one. -/
def LexToken.Plain (valued : List String) (token : LexToken) : Prop :=
  token.span = .none ∧ token.values.length = if token.kind ∈ valued then 1 else 0

instance (valued : List String) (token : LexToken) : Decidable (token.Plain valued) :=
  inferInstanceAs (Decidable (_ ∧ _))

namespace LexToken

variable {valued : List String} {token : LexToken}

/-- A token without a place and without a text is the one that its kind stands for. -/
theorem Plain.eq_terminalToken (h : token.Plain valued) (hkind : token.kind ∉ valued) :
    token = (tokenCodec valued).terminalToken token.kind := by
  obtain ⟨kind, values, span⟩ := token
  obtain ⟨rfl, hvalues⟩ := h
  rw [if_neg hkind, List.length_eq_zero_iff] at hvalues
  obtain rfl : values = [] := hvalues
  simp only [tokenCodec, LexToken.bare, List.contains_iff_mem, if_neg hkind]

/-- A token without a place comes back from its shape. -/
theorem Plain.shapeToken_tokenShape (h : token.Plain valued) :
    (tokenCodec valued).shapeToken ((tokenCodec valued).tokenShape token) token.kind =
      .ok token := by
  obtain ⟨kind, values, span⟩ := token
  obtain ⟨rfl, hvalues⟩ := h
  by_cases hkind : kind ∈ valued
  · rw [if_pos hkind, List.length_eq_one_iff] at hvalues
    obtain ⟨value, rfl⟩ := hvalues
    exact ReversibleGrammar.shapeToken_tokenShape (List.contains_iff_mem.2 hkind) value
  · rw [if_neg hkind, List.length_eq_zero_iff] at hvalues
    obtain rfl : values = [] := hvalues
    simp only [tokenCodec, LexToken.bare, List.contains_iff_mem, if_neg hkind]

end LexToken

/-- The tokens of a source are plain, if a kind of tokens always carries one text or none. -/
theorem Lexer.plain_of_mem_tokenizeDetached {l : Lexer} {valued : List String}
    (hrules : ∀ r ∈ l.rules, r.groups = if r.rule.name ∈ valued then 1 else 0) {source : String}
    {tokens : List LexToken} (h : l.tokenizeDetached source = .ok tokens) :
    ∀ token ∈ tokens, token.Plain valued := by
  rw [tokenizeDetached_eq, map_eq_ok_iff] at h
  obtain ⟨placed, htokens, rfl⟩ := h
  have hstep (s s' : Scan) (hs : ∀ token ∈ s.tokens, token.detach.Plain valued)
      (h : l.step {} s = .ok s') : ∀ token ∈ s'.tokens, token.detach.Plain valued := by
    obtain ⟨r, hr, m, hmatch, -, span, htokens⟩ := step_eq_ok h
    rw [htokens]
    split
    · exact hs
    · exact List.forall_mem_cons.2
        ⟨⟨rfl, (Regex.length_groups_of_search? hmatch).trans (hrules r hr)⟩, hs⟩
  obtain ⟨s, hs, -, rfl⟩ := tokenize_induction hstep (fun _ _ => List.forall_mem_nil _) htokens
  exact List.forall_mem_map.2 fun token htoken => hs token (List.mem_reverse.1 htoken)

end ReversibleGrammar
