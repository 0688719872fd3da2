/-
Sources with the same tokens.

Nothing that is made of a source depends on where its tokens stand, so that a source with the same
tokens, in other places, has the same tree but for the places, the same print and the same shape.

* `Language.PlaceFree` — tokens have the same shape wherever they stand;
* `parse_of_tokens_eq` — the tree, the print and the shape of a source with the same tokens;
* `Reprints`, `reprints_of_tokens_eq` — a print with the tokens of its source is printed again as it
  is.
-/
import ReversibleGrammar.Proofs.Language
import ReversibleGrammar.Proofs.Recognizer.TokenTypes

namespace ReversibleGrammar

namespace Language

variable {l : Language} {rule source source' : String} {t : Tree LexToken}

/-- Tokens have the same shape wherever they stand. -/
def PlaceFree (l : Language) : Prop :=
  ∀ token : LexToken, l.codec.tokenShape token.detach = l.codec.tokenShape token

/-- A source with the same tokens has the same tree but for the places. -/
theorem parse_of_tokens_eq (h : l.parse rule source = .ok t)
    (hsame : l.tokenizeDetached source' = l.tokenizeDetached source) :
    ∃ t', l.parse rule source' = .ok t' ∧ t'.map LexToken.detach = t.map LexToken.detach := by
  obtain ⟨id, tokens, hid, htokens, hparse⟩ := parse_eq_ok_iff.1 h
  rw [tokenizeDetached_eq_ok htokens, tokenizeDetached, Lexer.tokenizeDetached_eq,
    mapError_eq_ok_iff, map_eq_ok_iff] at hsame
  obtain ⟨tokens', htokens', hsame⟩ := hsame
  have hdetached (tokens : List LexToken) := parseOne_map (f := LexToken.detach) (fun _ => rfl)
    (l.grammar.sameTypes_detach tokens.toArray) l.parserConfig id
  have hparse' := hdetached tokens'
  rw [List.map_toArray, hsame, ← List.map_toArray, hdetached tokens, hparse] at hparse'
  cases hfound : parseOne l.grammar l.parserConfig id tokens'.toArray with
  | error e =>
    rw [hfound] at hparse'
    cases hparse'
  | ok t' =>
    rw [hfound] at hparse'
    exact ⟨t', parse_eq_ok_iff.2 ⟨id, tokens', hid, htokens', hfound⟩,
      (Except.ok.inj hparse').symm⟩

/-- The source is printed with its tokens.  The print has the tree of the source but for the
places and the shape of the source, and is printed again as it is. -/
structure Reprints (l : Language) (rule source : String) (t : Tree LexToken) : Prop where
  tokens : l.tokenizeDetached (l.print t) = l.tokenizeDetached source
  tree : ∃ t', l.parse rule (l.print t) = .ok t' ∧ t'.map LexToken.detach = t.map LexToken.detach
  format : l.format rule (l.print t) = .ok (l.print t)
  shape : l.extract rule (l.print t) = l.extract rule source

/-- It suffices that the print has the tokens of the source. -/
theorem reprints_of_tokens_eq (hplaces : l.PlaceFree) (h : l.parse rule source = .ok t)
    (hsame : l.tokenizeDetached (l.print t) = l.tokenizeDetached source) :
    l.Reprints rule source t := by
  obtain ⟨t', ht', hmap⟩ := parse_of_tokens_eq h hsame
  refine ⟨hsame, ⟨t', ht', hmap⟩, ?_, ?_⟩
  · have htext : ∀ token : LexToken, TokenText.text token.detach = TokenText.text token :=
      fun _ => rfl
    have hprint : l.print t' = l.print t := by
      rw [print, print, ← Tree.print_map htext t', hmap, Tree.print_map htext]
    rw [format, ht', ← hprint]
    rfl
  · have hshape : l.shapeOf t' = l.shapeOf t := by
      rw [shapeOf, shapeOf, ← Tree.extract_map hplaces t', hmap, Tree.extract_map hplaces]
    rw [extract, extract, h, ht']
    exact hshape

end Language

end ReversibleGrammar
