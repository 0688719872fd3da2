/-
Grammars whose prints keep words apart.

A word is a token that may run into the word after it, such as a name.  A pattern is followed
through the layout that it prints, with what is known about the place before it: whether a word
may end right there.  If no word is ever written where one may end, white space stands between two
words, wherever lines are broken.

* `Spelling` — how the tokens of a language are written, and which of them are words;
* `Grammar.ends?`, `Grammar.checkEnds` — whether a word may end right after a pattern, computed from
  what is known of its children;
* `Written` — what an output consists of so far; `written_line` — a line may take back blanks only;
* `passes_tree` — the trees of a grammar that passes the checks are written so;
* `Spaced`, `exists_spaced_print` — what a print consists of.
-/
import ReversibleGrammar.Lexer.Token
import ReversibleGrammar.Proofs.Grammar.Fitting
import ReversibleGrammar.Proofs.Printing.Layout
import ReversibleGrammar.Tree.Document

namespace ReversibleGrammar

/-- How the tokens of a language are written. -/
structure Spelling where
  /-- Tokens of this kind are words: they may run into each other. -/
  isWord : String → Bool
  /-- What stands around the text of a token of this kind. -/
  quotes : String → Option (String × String)

namespace Spelling

/-- A token as it is written. -/
def spell (s : Spelling) (v : LexToken) : List Char :=
  match s.quotes v.kind with
  | some (opening, closing) => opening.toList ++ v.text.toList ++ closing.toList
  | none => v.text.toList

/-- The token is written with something that is no blank at its end. -/
def Firm (s : Spelling) (v : LexToken) : Prop :=
  ∃ c, (s.spell v).getLast? = some c ∧ isLineBlank c = false

end Spelling

/-! ### Following a grammar -/

/-- Whether a word may end right after a line, if one may right before it. -/
def LineKind.ends (kind : LineKind) (touching : Bool) : Bool :=
  match kind with
  | soft => touching
  | default | hard => false

/-- Whether a word may end right after a decoration; one that is a text is not followed. -/
def Decoration.ends? (decoration : Option Decoration) (touching : Bool) : Option Bool :=
  match decoration with
  | none => some touching
  | some (.line kind) => some (kind.ends touching)
  | some (.literal _) => none

namespace Grammar

section

variable (g : Grammar) (s : Spelling) (known : PatternId → Bool → Option Bool)

/-- What follows a token between its quotes at the start of a sequence. -/
def afterQuoted? : List PatternId → Option (List PatternId)
  | first :: second :: third :: rest =>
    match (g.pattern? first).map Pattern.kind, (g.pattern? second).map Pattern.kind,
      (g.pattern? third).map Pattern.kind with
    | some (.literal opening), some (.consume terminal), some (.literal closing) =>
      if s.quotes terminal = some (opening, closing) ∧ s.isWord terminal = false then some rest
      else none
    | _, _, _ => none
  | _ => none

/-- Whether a word may end right after patterns one after the other. -/
def endsEach? : List PatternId → Bool → Option Bool
  | [], touching => some touching
  | id :: ids, touching => (known id touching).bind (endsEach? ids)

/-- Whether a word may end right after one of the alternatives. -/
def endsAny? (touching : Bool) : List PatternId → Option Bool
  | [] => some false
  | id :: ids => (known id touching).bind fun after => (endsAny? touching ids).map (after || ·)

/-- Whether a word may end right after items with separators between them: what may after the first
item, may after each of the others. -/
def endsMany? (item : PatternId) (separator : Option PatternId) (touching : Bool) : Option Bool :=
  (known item touching).bind fun after =>
    (endsEach? known (separator.toList ++ [item]) after).bind fun next =>
      if next && !after then none else some (touching || after)

/-- The conditional looks at the repetition in it. -/
def guards (p : Pattern) (reference : String) (child : PatternId) : Bool :=
  decide (p.name ≠ some reference) && (g.pattern? child).any fun q =>
    decide (q.name = some reference) && match q.kind with
    | .many .. => true
    | _ => false

/-- Whether a word may end right after a pattern, if one may right before it; nothing if a word may
be written where one ends. -/
def ends? (p : Pattern) (touching : Bool) : Option Bool :=
  match p.kind with
  | .consume terminal =>
    if (s.quotes terminal).isSome || (s.isWord terminal && touching) then none
    else some (s.isWord terminal)
  | .sequence children =>
    match g.afterQuoted? s children with
    | some rest => endsEach? known rest false
    | none => endsEach? known children touching
  | .choice alternatives _ _ => endsAny? known touching alternatives
  | .many item separator => endsMany? known item separator touching
  | .option item => (known item touching).map (touching || ·)
  | .thunk rule => (g.ruleBody? rule).bind (known · touching)
  | .indent child | .group child => known child touching
  | .conditional child reference before after =>
    (((Decoration.ends? before touching).bind (known child)).bind (Decoration.ends? after)).bind
      fun whole => (if g.guards p reference child then some touching else known child touching).map
        (whole || ·)
  | .line kind => some (kind.ends touching)
  | .literal _ => none

/-- Whether a word may end right after a pattern, as far as can be seen so deep in it from what is
known of rules. -/
def endsTo? (rules : RuleId → Bool → Option Bool) : Nat → PatternId → Bool → Option Bool
  | 0, _, _ => none
  | depth + 1, id, touching =>
    (g.pattern? id).bind fun p =>
      match p.kind with
      | .thunk rule => rules rule touching
      | _ => g.ends? s (endsTo? rules depth) p touching

/-- Checks that what is known of a pattern follows from what is known of its children. -/
def checkEnds (id : PatternId) (p : Pattern) : Bool :=
  [false, true].all fun touching => (known id touching).all fun after =>
    (g.ends? s known p touching).any fun actual => !actual || after

end

end Grammar

/-! ### Outputs -/

/-- Tokens with white space between words, both the last one first: as they are written.  The flag
tells whether a word may end right here. -/
inductive Written (s : Spelling) : Bool → List LexToken → List Char → Prop
  | nil : Written s false [] []
  | token {touching : Bool} {tokens : List LexToken} {cs : List Char} {v : LexToken}
      (hapart : s.isWord v.kind = true → touching = false) (hfirm : s.Firm v)
      (h : Written s touching tokens cs) :
      Written s (s.isWord v.kind) (v :: tokens) ((s.spell v).reverse ++ cs)
  | blank {touching : Bool} {tokens : List LexToken} {cs : List Char} {c : Char}
      (hc : Doc.IsBreak c) (h : Written s touching tokens cs) : Written s false tokens (c :: cs)
  | may {tokens : List LexToken} {cs : List Char} (h : Written s false tokens cs) :
      Written s true tokens cs

section

variable {s : Spelling} {touching after : Bool} {tokens : List LexToken} {cs w : List Char}
variable {out out' : Output} {config : PrintConfig}

theorem Written.mono (h : Written s touching tokens cs) (hle : touching = true → after = true) :
    Written s after tokens cs := by
  cases touching with
  | true => exact hle rfl ▸ h
  | false =>
    cases after with
    | true => exact .may h
    | false => exact h

/-- White space is added. -/
theorem Written.blanks (h : Written s touching tokens out.reversed) (hadds : out.Adds w out')
    (hw : ∀ c ∈ w, Doc.IsBreak c) : Written s touching tokens out'.reversed := by
  rw [show out'.reversed = w.reverse ++ out.reversed from hadds]
  generalize hreverse : w.reverse = blanks
  have hblanks : ∀ c ∈ blanks, Doc.IsBreak c := fun c hc =>
    hw c (List.mem_reverse.1 (hreverse ▸ hc))
  clear hreverse
  induction blanks with
  | nil => exact h
  | cons c blanks ih =>
    obtain ⟨hc, hblanks⟩ := List.forall_mem_cons.1 hblanks
    exact (Written.blank hc (ih hblanks)).mono nofun

/-- Blanks at the end may be taken back, but then a word may end there. -/
theorem Written.trim (h : Written s touching tokens cs) :
    Written s true tokens (cs.dropWhile isLineBlank) := by
  induction h with
  | nil => exact .may .nil
  | @token touching tokens cs v hapart hfirm h _ =>
    obtain ⟨c, hlast, hc⟩ := hfirm
    have hdrop : ((s.spell v).reverse ++ cs).dropWhile isLineBlank =
        (s.spell v).reverse ++ cs := by
      rw [← List.head?_reverse] at hlast
      obtain ⟨rest, hreverse⟩ := List.head?_eq_some_iff.1 hlast
      rw [hreverse, List.cons_append, List.dropWhile_cons_of_neg (by simp [hc])]
    rw [hdrop]
    exact (Written.token hapart ⟨c, hlast, hc⟩ h).mono fun _ => rfl
  | @blank touching tokens cs c hc h ih =>
    by_cases hblank : isLineBlank c = true
    · rwa [List.dropWhile_cons_of_pos hblank]
    · rw [List.dropWhile_cons_of_neg hblank]
      exact .may (.blank hc h)
  | may _ ih => exact ih

/-- A new line takes back blanks only. -/
theorem Written.newLine (h : Written s touching tokens out.reversed) (level : Nat) :
    Written s false tokens (out.newLine.emitIndent level config.indentUnit).reversed := by
  obtain ⟨w, hadds, hblank⟩ := out.newLine.adds_emitIndent config level
  exact Written.blanks (.blank (.inr rfl) h.trim) hadds fun c hc => .inl (hblank c hc)

/-- A line adds white space, or nothing if it is soft. -/
theorem written_line {kind : LineKind} (hwrites : (Doc.line kind).Writes config out out')
    (h : Written s touching tokens out.reversed) :
    Written s (kind.ends touching) tokens out'.reversed := by
  obtain ⟨rfl, rfl⟩ | ⟨rfl, rfl⟩ | ⟨level, rfl⟩ := hwrites
  · have hadds := out.adds_emit " "
    rw [show (out.emit " ").reversed = " ".toList.reverse ++ out.reversed from hadds]
    exact .blank (.inl rfl) h
  · exact h
  · exact h.newLine level |>.mono nofun

theorem written_decoration {decoration : Option Decoration}
    (hends : Decoration.ends? decoration touching = some after)
    (hwrites : (Decoration.toDoc decoration).Writes config out out')
    (h : Written s touching tokens out.reversed) : Written s after tokens out'.reversed := by
  match decoration, hends with
  | none, hends =>
    cases hends
    obtain rfl : out' = out := hwrites
    exact h
  | some (.line kind), hends =>
    cases hends
    exact written_line hwrites h

end

/-! ### Trees -/

/-- Each leaf of the tree is of the kind that its pattern takes, and has no blank at its end. -/
def SpelledLeaves (s : Spelling) (t : Tree LexToken) : Prop :=
  ∀ l ∈ t.leaves, l.1.kind = .consume l.2.kind ∧ s.Firm l.2

theorem SpelledLeaves.child {s : Spelling} {t u : Tree LexToken} (h : SpelledLeaves s t)
    (hu : u ∈ t.children) : SpelledLeaves s u :=
  fun l hl => h l (Tree.mem_leaves_of_mem_children hu hl)

/-- After what a word may end right before, the document writes these tokens, and then a word may end
right after them or not. -/
def Doc.Passes (s : Spelling) (config : PrintConfig) (touching after : Bool)
    (values : List LexToken) (docs : List Doc) : Prop :=
  ∀ tokens out out', WritesAll config docs out out' → Written s touching tokens out.reversed →
    Written s after (values.reverse ++ tokens) out'.reversed

section

open Doc

variable {g : Grammar} {s : Spelling} {known : PatternId → Bool → Option Bool}
variable {config : PrintConfig} {touching between after : Bool}
variable {values values' : List LexToken} {docs docs' : List Doc}

theorem passes_nil : Passes s config touching touching [] [] := by
  intro tokens out out' hwrites h
  obtain rfl : out' = out := hwrites
  exact h

theorem Doc.Passes.append (h : Passes s config touching between values docs)
    (h' : Passes s config between after values' docs') :
    Passes s config touching after (values ++ values') (docs ++ docs') := by
  intro tokens out out' hwrites hwritten
  obtain ⟨middle, hdocs, hdocs'⟩ := writesAll_append.1 hwrites
  rw [List.reverse_append, List.append_assoc]
  exact h' _ _ _ hdocs' (h _ _ _ hdocs hwritten)

theorem Doc.Passes.mono (h : Passes s config touching between values docs)
    (hle : between = true → after = true) : Passes s config touching after values docs :=
  fun tokens out out' hwrites hwritten => (h tokens out out' hwrites hwritten).mono hle

theorem Doc.Passes.of_le (h : Passes s config between after values docs)
    (hle : touching = true → between = true) : Passes s config touching after values docs :=
  fun tokens out out' hwrites hwritten => h tokens out out' hwrites (hwritten.mono hle)

theorem Doc.Passes.join (h : Passes s config touching after values docs) :
    Passes s config touching after values [join docs] :=
  fun tokens out out' hwrites => h tokens out out' (writes_join.1 (writesAll_singleton.1 hwrites))

theorem passes_line (kind : LineKind) :
    Passes s config touching (kind.ends touching) [] [.line kind] :=
  fun _ _ _ hwrites => written_line (writesAll_singleton.1 hwrites)

theorem passes_decoration {decoration : Option Decoration}
    (hends : Decoration.ends? decoration touching = some after) :
    Passes s config touching after [] [Decoration.toDoc decoration] :=
  fun _ _ _ hwrites => written_decoration hends (writesAll_singleton.1 hwrites)

/-- A token is written as one text, or between the texts that are its quotes. -/
theorem passes_token {v : LexToken} (hfirm : s.Firm v)
    (hapart : s.isWord v.kind = true → touching = false) (hdocs : ∀ out out',
      WritesAll config docs out out' → out.Adds (s.spell v) out') :
    Passes s config touching (s.isWord v.kind) [v] docs := by
  intro tokens out out' hwrites h
  rw [show out'.reversed = (s.spell v).reverse ++ out.reversed from hdocs out out' hwrites]
  exact .token hapart hfirm h

/-- What holds of the children of a tree. -/
def ChildrenPass (g : Grammar) (s : Spelling) (known : PatternId → Bool → Option Bool)
    (config : PrintConfig) (ts : List (Tree LexToken)) : Prop :=
  ∀ t ∈ ts, ∀ id touching after, t.Fits g id → known id touching = some after →
    Passes s config touching after t.values [t.toDoc]

theorem passes_each {ts : List (Tree LexToken)} {ids : List PatternId}
    (hts : ChildrenPass g s known config ts)
    (hfits : List.Forall₂ (fun t child => t.Fits g child) ts ids)
    (hends : Grammar.endsEach? known ids touching = some after) :
    Passes s config touching after (Tree.valuesEach ts).flatten (Tree.toDocs ts) := by
  induction hfits generalizing touching with
  | nil =>
    cases hends
    exact passes_nil
  | @cons t id ts ids ht _ ih =>
    obtain ⟨between, hfirst, hrest⟩ := Option.bind_eq_some_iff.1 hends
    have hhead := hts t List.mem_cons_self id touching between ht hfirst
    exact hhead.append (ih (fun u hu => hts u (List.mem_cons_of_mem t hu)) hrest)

/-- Items and separators take turns. -/
theorem passes_items {item : PatternId} {separator : Option PatternId} {next : Bool}
    (hnext : Grammar.endsEach? known (separator.toList ++ [item]) after = some next)
    (hle : next = true → after = true) {t : Tree LexToken} {ts us : List (Tree LexToken)}
    (hitems : ChildrenPass g s known config (t :: ts))
    (hseparators : ChildrenPass g s known config us) (hfits : ∀ u ∈ t :: ts, u.Fits g item)
    (hlength : us.length = if separator.isSome then ts.length else 0)
    (hfits' : ∀ u ∈ us, ∃ id, separator = some id ∧ u.Fits g id)
    (hends : known item touching = some between) (hbetween : between = true → after = true) :
    Passes s config touching after
      (interleave (Tree.valuesEach (t :: ts)) (Tree.valuesEach us)).flatten
      (interleave (Tree.toDocs (t :: ts)) (Tree.toDocs us)) := by
  induction ts generalizing t us touching between with
  | nil =>
    have hhead := (hitems t List.mem_cons_self item touching between (hfits t List.mem_cons_self)
      hends).mono hbetween
    obtain rfl : us = [] := by
      refine List.length_eq_zero_iff.1 (hlength.trans ?_)
      split <;> rfl
    simpa [Tree.valuesEach, Tree.toDocs, interleave] using hhead
  | cons t' ts ih =>
    have hhead := (hitems t List.mem_cons_self item touching between (hfits t List.mem_cons_self)
      hends).mono hbetween
    have hitems' : ChildrenPass g s known config (t' :: ts) := fun u hu =>
      hitems u (List.mem_cons_of_mem t hu)
    have hfits'' : ∀ u ∈ t' :: ts, u.Fits g item := fun u hu =>
      hfits u (List.mem_cons_of_mem t hu)
    cases separator with
    | none =>
      obtain rfl : us = [] := List.length_eq_zero_iff.1 hlength
      have hends' : known item after = some next := by
        simpa [Grammar.endsEach?] using hnext
      have hrest := ih hitems' hseparators hfits'' rfl (List.forall_mem_nil _) hends' hle
      exact hhead.append hrest
    | some separator =>
      obtain _ | ⟨u, us⟩ := us
      · cases hlength
      obtain ⟨middle, hseparator, hrest⟩ := Option.bind_eq_some_iff.1 hnext
      have hends' : known item middle = some next := by
        simpa [Grammar.endsEach?] using hrest
      obtain ⟨_, hid, hu⟩ := hfits' u List.mem_cons_self
      obtain rfl := Option.some.inj hid
      have hmiddle := hseparators u List.mem_cons_self separator after middle hu hseparator
      have hrest := ih hitems' (fun u' hu' => hseparators u' (List.mem_cons_of_mem u hu')) hfits''
        (Nat.succ.inj hlength) (fun u' hu' => hfits' u' (List.mem_cons_of_mem u hu')) hends' hle
      exact hhead.append (hmiddle.append hrest)

theorem afterQuoted?_eq_some {ids rest : List PatternId} (h : g.afterQuoted? s ids = some rest) :
    ∃ first second third p q r opening closing terminal, ids = first :: second :: third :: rest ∧
      g.pattern? first = some p ∧ p.kind = .literal opening ∧
      g.pattern? second = some q ∧ q.kind = .consume terminal ∧
      g.pattern? third = some r ∧ r.kind = .literal closing ∧
      s.quotes terminal = some (opening, closing) ∧ s.isWord terminal = false := by
  unfold Grammar.afterQuoted? at h
  split at h
  swap
  · cases h
  rename_i first second third ids
  split at h
  swap
  · cases h
  rename_i opening terminal closing hfirst hsecond hthird
  obtain ⟨p, hp, hpkind⟩ := Option.map_eq_some_iff.1 hfirst
  obtain ⟨q, hq, hqkind⟩ := Option.map_eq_some_iff.1 hsecond
  obtain ⟨r, hr, hrkind⟩ := Option.map_eq_some_iff.1 hthird
  split at h
  · rename_i hquotes
    cases h
    exact ⟨first, second, third, p, q, r, opening, closing, terminal, rfl, hp, hpkind, hq, hqkind,
      hr, hrkind, hquotes.1, hquotes.2⟩
  · cases h

/-- A token between its quotes at the start of a sequence. -/
theorem passes_quoted {ids rest : List PatternId} (hids : g.afterQuoted? s ids = some rest)
    {ts : List (Tree LexToken)} (hts : ChildrenPass g s known config ts)
    (hleaves : ∀ t ∈ ts, SpelledLeaves s t)
    (hfits : List.Forall₂ (fun t child => t.Fits g child) ts ids)
    (hends : Grammar.endsEach? known rest false = some after) :
    Passes s config touching after (Tree.valuesEach ts).flatten (Tree.toDocs ts) := by
  obtain ⟨first, second, third, p, q, r, opening, closing, terminal, rfl, hp, hpkind, hq, hqkind, hr,
    hrkind, hquotes, hword⟩ := afterQuoted?_eq_some hids
  obtain _ | ⟨hfirst, _ | ⟨hsecond, _ | ⟨hthird, hrest⟩⟩⟩ := hfits
  obtain rfl := hfirst.eq_mark hp (by rw [hpkind]; rfl)
  obtain ⟨v, rfl⟩ := hsecond.eq_leaf hq hqkind
  obtain rfl := hthird.eq_mark hr (by rw [hrkind]; rfl)
  rename_i ts
  obtain ⟨hkind, hfirm⟩ := hleaves (.leaf q v) (by simp) (q, v) List.mem_cons_self
  obtain rfl : terminal = v.kind := PatternKind.consume.inj (hqkind.symm.trans hkind)
  have hspell : s.spell v = opening.toList ++ v.text.toList ++ closing.toList := by
    simp only [Spelling.spell, hquotes]
  have htoken : Passes s config touching (s.isWord v.kind) [v]
      [.text opening, .text (TokenText.text v), .text closing] := by
    refine passes_token hfirm (fun h => absurd (h.symm.trans hword) nofun) fun out out' hwrites => ?_
    obtain ⟨_, h, _, h', hlast⟩ := hwrites
    rw [hspell]
    exact ((adds_of_writes_text h).append (adds_of_writes_text h')).append
      (adds_of_writes_text (writesAll_singleton.1 hlast))
  rw [hword] at htoken
  have hafter := passes_each (fun t ht => hts t (by simp [ht])) hrest hends
  simpa [Tree.valuesEach, Tree.values, Tree.toDocs, Tree.toDoc, hpkind, hrkind] using
    htoken.append hafter

theorem exists_ends_of_check {id : PatternId} {p : Pattern} (h : g.checkEnds s known id p = true)
    (hknown : known id touching = some after) :
    ∃ actual, g.ends? s known p touching = some actual ∧ (actual = true → after = true) := by
  have htouching := List.all_eq_true.1 h touching (by cases touching <;> simp)
  rw [hknown, Option.all_some] at htouching
  obtain ⟨actual, hactual, hle⟩ := (Option.any_eq_true _ _).1 htouching
  exact ⟨actual, hactual, fun hends => by simpa [hends] using hle⟩

theorem endsAny?_of_mem {ids : List PatternId} {id : PatternId} (hid : id ∈ ids)
    (h : Grammar.endsAny? known touching ids = some after) :
    ∃ actual, known id touching = some actual ∧ (actual = true → after = true) := by
  induction ids generalizing after with
  | nil => cases hid
  | cons first ids ih =>
    obtain ⟨actual, hfirst, hrest⟩ := Option.bind_eq_some_iff.1 h
    obtain ⟨others, hothers, rfl⟩ := Option.map_eq_some_iff.1 hrest
    rcases List.mem_cons.1 hid with rfl | hid
    · exact ⟨actual, hfirst, fun h => Bool.or_eq_true_iff.2 (.inl h)⟩
    · obtain ⟨actual', hactual, hle⟩ := ih hid hothers
      exact ⟨actual', hactual, fun h => by rw [hle h, Bool.or_true]⟩

/-- If the repetition in a conditional that looks at it is empty, nothing is written. -/
theorem passes_guarded {p : Pattern} {reference : String} {child : PatternId}
    (hguards : g.guards p reference child = true) {t : Tree LexToken} (ht : t.Fits g child)
    (hempty : (Tree.wrapped p t).holdsTruthy reference = false) :
    Passes s config touching touching t.values [t.toDoc] := by
  obtain ⟨hname, hchild⟩ := Bool.and_eq_true_iff.1 hguards
  obtain ⟨q, hq, hchild⟩ := (Option.any_eq_true _ _).1 hchild
  obtain ⟨hqname, hqkind⟩ := Bool.and_eq_true_iff.1 hchild
  split at hqkind
  swap
  · cases hqkind
  rename_i item separator hkind
  obtain ⟨items, separators, rfl, -⟩ := ht.eq_many hq hkind
  have hfound : (Tree.wrapped p (.many q items separators)).findNamed? reference =
      some (.many q items separators) := by
    rw [Tree.findNamed?, if_neg (of_decide_eq_true hname), Tree.findNamed?,
      if_pos (of_decide_eq_true hqname)]
  rw [Tree.holdsTruthy, hfound] at hempty
  cases items with
  | nil => exact passes_nil.join
  | cons => cases hempty

theorem passes_leaf {p : Pattern} {v : LexToken} (hkind : p.kind = .consume v.kind)
    (hfirm : s.Firm v) (hends : g.ends? s known p touching = some after) :
    Passes s config touching after [v] [.text (TokenText.text v)] := by
  simp only [Grammar.ends?, hkind] at hends
  split at hends
  · cases hends
  rename_i hword
  cases hends
  simp only [Bool.or_eq_true, Bool.and_eq_true, not_or, not_and, Option.not_isSome_iff_eq_none]
    at hword
  refine passes_token hfirm (fun h => eq_false_of_ne_true (hword.2 h)) fun out out' hwrites => ?_
  simp only [Spelling.spell, hword.1]
  exact adds_of_writes_text (writesAll_singleton.1 hwrites)

theorem passes_mark {p : Pattern} {marker : Marker} (hkind : p.kind.mark? = some marker)
    (hends : g.ends? s known p touching = some after) :
    Passes s config touching after [] [(Tree.mark p : Tree LexToken).toDoc] := by
  simp only [Grammar.ends?] at hends
  cases hp : p.kind with
  | line kind =>
    simp only [hp] at hends
    cases hends
    simp only [Tree.toDoc, hp]
    exact passes_line kind
  | literal text =>
    simp only [hp] at hends
    cases hends
  | _ => simp [hp, PatternKind.mark?] at hkind

theorem passes_many {item : PatternId} {separator : Option PatternId}
    (hends : Grammar.endsMany? known item separator touching = some after)
    {items separators : List (Tree LexToken)} (hitems : ChildrenPass g s known config items)
    (hseparators : ChildrenPass g s known config separators) (hfits : ∀ u ∈ items, u.Fits g item)
    (hlength : separators.length = if separator.isSome then items.length - 1 else 0)
    (hfits' : ∀ u ∈ separators, ∃ id, separator = some id ∧ u.Fits g id) :
    Passes s config touching after
      (interleave (Tree.valuesEach items) (Tree.valuesEach separators)).flatten
      (interleave (Tree.toDocs items) (Tree.toDocs separators)) := by
  obtain ⟨next, hfirst, hends⟩ := Option.bind_eq_some_iff.1 hends
  obtain ⟨others, hothers, hends⟩ := Option.bind_eq_some_iff.1 hends
  split at hends
  · cases hends
  rename_i hle
  cases hends
  cases items with
  | nil => exact passes_nil.mono fun h => Bool.or_eq_true_iff.2 (.inl h)
  | cons first items =>
    have hall := passes_items hothers (fun h => by simpa [h] using hle) hitems hseparators hfits
      hlength hfits' hfirst fun h => h
    exact hall.mono fun h => Bool.or_eq_true_iff.2 (.inr h)

theorem passes_wrapped {p : Pattern} {wrapper : Wrapper} {child : PatternId}
    (hkind : p.kind.wrapped? g = some (wrapper, child)) {t : Tree LexToken} (ht : t.Fits g child)
    (hchild : ∀ touching after, known child touching = some after →
      Passes s config touching after t.values [t.toDoc])
    (hends : g.ends? s known p touching = some after) :
    Passes s config touching after t.values [Tree.wrapDoc p t t.toDoc] := by
  simp only [Grammar.ends?] at hends
  cases hp : p.kind with
  | thunk rule =>
    simp only [hp, PatternKind.wrapped?] at hends hkind
    obtain ⟨body, hbody, heq⟩ := Option.map_eq_some_iff.1 hkind
    cases heq
    rw [hbody] at hends
    simp only [Tree.wrapDoc, hp]
    exact hchild _ _ hends
  | indent | group =>
    simp only [hp, PatternKind.wrapped?] at hends hkind
    cases hkind
    simp only [Tree.wrapDoc, hp]
    exact hchild _ _ hends
  | conditional _ reference before after' =>
    simp only [hp, PatternKind.wrapped?] at hends hkind
    cases hkind
    obtain ⟨whole, hwhole, hends⟩ := Option.bind_eq_some_iff.1 hends
    obtain ⟨bare, hbare, rfl⟩ := Option.map_eq_some_iff.1 hends
    simp only [Tree.wrapDoc, hp]
    split
    · obtain ⟨inside, hwhole, hlast⟩ := Option.bind_eq_some_iff.1 hwhole
      obtain ⟨start, hfirst, hinside⟩ := Option.bind_eq_some_iff.1 hwhole
      have hall := (passes_decoration hfirst).append
        ((hchild _ _ hinside).append (passes_decoration hlast))
      rw [List.nil_append, List.append_nil] at hall
      exact hall.join.mono fun h => Bool.or_eq_true_iff.2 (.inl h)
    · rename_i hempty
      refine Passes.mono ?_ fun h => Bool.or_eq_true_iff.2 (.inr h)
      split at hbare
      · rename_i hguards
        cases hbare
        exact passes_guarded hguards ht (eq_false_of_ne_true hempty)
      · exact hchild _ _ hbare
  | _ => simp [hp, PatternKind.wrapped?] at hkind

/-- The trees of a grammar that passes the checks are written as tokens with white space between
words. -/
theorem passes_tree
    (hcheck : ∀ id p, g.pattern? id = some p → g.checkEnds s known id p = true)
    {t : Tree LexToken} (hleaves : SpelledLeaves s t) {id : PatternId} (hfits : t.Fits g id)
    (hknown : known id touching = some after) :
    Passes s config touching after t.values [t.toDoc] := by
  induction t using Tree.childrenInduction generalizing id touching after with
  | h t ih =>
  obtain ⟨actual, hends, hle⟩ := exists_ends_of_check (hcheck id _ hfits.pattern?_eq) hknown
  refine Passes.mono ?_ hle
  have hchildren {ts : List (Tree LexToken)} (hts : ∀ u ∈ ts, u ∈ t.children) :
      ChildrenPass g s known config ts := fun u hu _ _ _ hu' hknown' =>
    ih u (hts u hu) (hleaves.child (hts u hu)) hu' hknown'
  have hchild {u : Tree LexToken} (hu : u ∈ t.children) {child : PatternId} (hfits : u.Fits g child)
      (touching after : Bool) (hknown : known child touching = some after) :
      Passes s config touching after u.values [u.toDoc] :=
    ih u hu (hleaves.child hu) hfits hknown
  clear hcheck hknown hle
  cases t with
  | leaf p v =>
    obtain ⟨hkind, hfirm⟩ := hleaves (p, v) List.mem_cons_self
    exact passes_leaf hkind hfirm hends
  | sequence p ts =>
    obtain ⟨-, children, hkind, hts⟩ := Tree.fits_sequence_iff.1 hfits
    simp only [Grammar.ends?, Tree.pattern, hkind] at hends
    refine Passes.join ?_
    split at hends
    · rename_i rest hrest
      exact passes_quoted hrest (hchildren fun _ hu => hu) (fun _ hu => hleaves.child hu) hts hends
    · exact passes_each (hchildren fun _ hu => hu) hts hends
  | choice p index u =>
    obtain ⟨-, alternatives, mode, names, alternative, hkind, halternative, hu⟩ := hfits
    simp only [Grammar.ends?, Tree.pattern, hkind] at hends
    obtain ⟨after', hknown, hle⟩ := endsAny?_of_mem (List.mem_of_getElem? halternative) hends
    exact (hchild List.mem_cons_self hu _ _ hknown).mono hle
  | many p items separators =>
    obtain ⟨-, item, separator, hkind, hitems, hlength, hseparators⟩ := Tree.fits_many_iff.1 hfits
    simp only [Grammar.ends?, Tree.pattern, hkind] at hends
    exact (passes_many hends (hchildren fun _ hu => List.mem_append_left separators hu)
      (hchildren fun _ hu => List.mem_append_right items hu) hitems hlength hseparators).join
  | absent p =>
    obtain ⟨-, item, hkind⟩ := hfits
    simp only [Grammar.ends?, Tree.pattern, hkind] at hends
    obtain ⟨after', -, rfl⟩ := Option.map_eq_some_iff.1 hends
    have hnil : Passes s config touching touching [] [.nil] := passes_nil.join
    exact hnil.mono fun h => Bool.or_eq_true_iff.2 (.inl h)
  | present p u =>
    obtain ⟨-, item, hkind, hu⟩ := hfits
    simp only [Grammar.ends?, Tree.pattern, hkind] at hends
    obtain ⟨after', hknown, rfl⟩ := Option.map_eq_some_iff.1 hends
    exact (hchild List.mem_cons_self hu _ _ hknown).mono fun h => Bool.or_eq_true_iff.2 (.inr h)
  | wrapped p u =>
    obtain ⟨-, wrapper, child, hkind, hu⟩ := hfits
    exact passes_wrapped hkind hu (hchild List.mem_cons_self hu) hends
  | mark p =>
    obtain ⟨-, marker, hkind⟩ := hfits
    exact passes_mark hkind hends

end

/-! ### Prints -/

/-- Tokens with white space between words, from the start on.  The flag tells whether a word stands
right here. -/
inductive Spaced (s : Spelling) : Bool → List LexToken → List Char → Prop
  | nil : Spaced s false [] []
  | blank {starts : Bool} {tokens : List LexToken} {cs : List Char} {c : Char}
      (hc : Doc.IsBreak c) (h : Spaced s starts tokens cs) : Spaced s false tokens (c :: cs)
  | token {starts : Bool} {tokens : List LexToken} {cs : List Char} {v : LexToken}
      (hapart : s.isWord v.kind = true → starts = false) (h : Spaced s starts tokens cs) :
      Spaced s (s.isWord v.kind) (v :: tokens) (s.spell v ++ cs)

/-- What is written, and what comes after it. -/
theorem Written.spaced {s : Spelling} {touching starts : Bool} {tokens tokens' : List LexToken}
    {cs cs' : List Char} (h : Written s touching tokens cs) (h' : Spaced s starts tokens' cs')
    (hapart : touching = true → starts = false) :
    ∃ starts', Spaced s starts' (tokens.reverse ++ tokens') (cs.reverse ++ cs') := by
  induction h generalizing starts tokens' cs' with
  | nil => exact ⟨starts, h'⟩
  | @token touching tokens cs v hapart' _ _ ih =>
    have hlater := ih (.token hapart h') fun htouching => eq_false_of_ne_true fun hword => by
      rw [hapart' hword] at htouching
      cases htouching
    simpa using hlater
  | @blank touching tokens cs c hc _ ih =>
    have hlater := ih (.blank hc h') fun _ => rfl
    simpa using hlater
  | may _ ih => exact ih h' nofun

/-- A print consists of the tokens of the tree, with white space between words. -/
theorem exists_spaced_print {g : Grammar} {s : Spelling} {known : PatternId → Bool → Option Bool}
    (hcheck : ∀ id p, g.pattern? id = some p → g.checkEnds s known id p = true)
    {t : Tree LexToken} (hleaves : SpelledLeaves s t) {id : PatternId} (hfits : t.Fits g id)
    {after : Bool} (hknown : known id false = some after) (config : PrintConfig) :
    ∃ starts, Spaced s starts t.values (t.print config).toList := by
  obtain ⟨out, hwrites, hrender⟩ := (Doc.group t.toDoc).render_writes config
  have hwritten := passes_tree hcheck hleaves hfits hknown [] .empty out
    (Doc.writesAll_singleton.2 hwrites) .nil
  obtain ⟨starts, hspaced⟩ := hwritten.spaced .nil fun _ => rfl
  refine ⟨starts, ?_⟩
  rw [Tree.print, hrender, Output.toText, String.toList_ofList]
  simpa using hspaced

end ReversibleGrammar
