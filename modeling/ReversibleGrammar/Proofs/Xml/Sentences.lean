/-
The documents that the grammar describes, and those that it matches.

* `Sentence` — the sequences of token kinds that are elements, and those that are content;
* `sentence_of_mem_element` — what the element pattern matches is an element;
* `mem_stops_of_sentence` — every element is matched.
-/
import ReversibleGrammar.Proofs.Xml.Stops

namespace ReversibleGrammar

namespace Xml

/-- What a sequence of token kinds may be. -/
inductive Part where
  | element
  | content

/-- The kinds of the tokens of `n` attributes, each a name, an equals sign and a string. -/
def attributeKinds (n : Nat) : List String := (List.replicate n ["name", "=", "string"]).flatten

/-- The kinds of the tokens of elements and of content. -/
inductive Sentence : Part → List String → Prop
  | closed (n : Nat) : Sentence .element (["<", "name"] ++ attributeKinds n ++ ["/>"])
  | opened (n : Nat) {cs : List (List String)} (hcs : ∀ c ∈ cs, Sentence .content c) :
    Sentence .element
      (["<", "name"] ++ attributeKinds n ++ [">"] ++ cs.flatten ++ ["</", "name", ">"])
  | charData : Sentence .content ["charData"]
  | comment : Sentence .content ["comment"]
  | element {ks : List String} (h : Sentence .element ks) : Sentence .content ks

/-- The kinds of the tokens between two positions. -/
def kinds (tokens : Array LexToken) (i j : Nat) : List String :=
  (Tree.span tokens i j : List LexToken).map LexToken.kind

theorem attributeKinds_succ (n : Nat) :
    attributeKinds (n + 1) = attributeKinds n ++ ["name", "=", "string"] := by
  rw [attributeKinds, List.replicate_succ', List.flatten_concat]
  rfl

section

variable {tokens : Array LexToken} {i j k : Nat}

/-! ### Kinds of tokens -/

theorem kinds_self : kinds tokens i i = [] := by simp [kinds, Tree.span]

theorem kinds_append (hij : i ≤ j) (hjk : j ≤ k) :
    kinds tokens i k = kinds tokens i j ++ kinds tokens j k := by
  rw [kinds, kinds, kinds, ← List.map_append, Tree.span_append tokens hij hjk]

theorem kinds_succ {s : String} (h : kind? tokens i = some s) : kinds tokens i (i + 1) = [s] := by
  obtain ⟨token, htoken, rfl⟩ := Option.map_eq_some_iff.1 h
  obtain ⟨hlt, rfl⟩ := Array.getElem?_eq_some_iff.1 htoken
  rw [kinds, Tree.span, Nat.add_sub_cancel_left, List.take_one, List.head?_drop]
  simp [hlt, Token.value]

theorem kinds_size (tokens : List LexToken) :
    kinds tokens.toArray 0 tokens.length = tokens.map LexToken.kind := by
  simp [kinds, Tree.span, Token.value]

theorem length_kinds (hij : i ≤ j) (hj : j ≤ tokens.size) :
    (kinds tokens i j).length = j - i := by
  simp only [kinds, Tree.span, List.length_map, List.length_take, List.length_drop,
    Array.length_toList]
  omega

/-- Kinds that are made of two parts are those of the tokens before a position, and those after
it. -/
theorem exists_of_kinds_append (hij : i ≤ j) (hj : j ≤ tokens.size) (as : List String)
    {bs : List String} (h : kinds tokens i j = as ++ bs) :
    ∃ m, i ≤ m ∧ m ≤ j ∧ kinds tokens i m = as ∧ kinds tokens m j = bs := by
  have hlength := congrArg List.length h
  rw [length_kinds hij hj, List.length_append] at hlength
  have him : i ≤ i + as.length := Nat.le_add_right _ _
  have hmj : i + as.length ≤ j := by omega
  rw [kinds_append him hmj] at h
  obtain ⟨has, hbs⟩ := List.append_inj h (by rw [length_kinds him (hmj.trans hj)]; omega)
  exact ⟨i + as.length, him, hmj, has, hbs⟩

theorem kind?_of_kinds_cons (hij : i ≤ j) (hj : j ≤ tokens.size) {s : String} {ks : List String}
    (h : kinds tokens i j = s :: ks) :
    kind? tokens i = some s ∧ i < j ∧ kinds tokens (i + 1) j = ks := by
  have hlength := congrArg List.length h
  rw [length_kinds hij hj, List.length_cons] at hlength
  have hlt : i < tokens.size := by omega
  have hkind : kind? tokens i = some tokens[i].kind := by
    rw [kind?, Array.getElem?_eq_getElem hlt]
    rfl
  rw [kinds_append (Nat.le_succ i) (by omega), kinds_succ hkind, List.singleton_append,
    List.cons.injEq] at h
  exact ⟨hkind.trans (congrArg some h.1), by omega, h.2⟩

theorem eq_of_kinds_nil (hij : i ≤ j) (hj : j ≤ tokens.size) (h : kinds tokens i j = []) :
    j = i := by
  have hlength := congrArg List.length h
  rw [length_kinds hij hj, List.length_nil] at hlength
  omega

end

section

variable {tokens : Array LexToken} {read : Readings LexToken} {i j : Nat}

theorem range_of_mem_stops (hread : read.Forward grammar tokens.size) {id : PatternId}
    (hi : i ≤ tokens.size) (hj : j ∈ read.stops id i) : i ≤ j ∧ j ≤ tokens.size := by
  obtain ⟨y, hy, rfl⟩ := mem_stops.1 hj
  exact ⟨(hread id i hi y hy).1, (hread id i hi y hy).2.1⟩

/-! ### Matches are sentences -/

theorem kinds_of_mem_attributes (hsolves : read.Solves grammar tokens)
    (hread : read.Forward grammar tokens.size) (hi : i ≤ tokens.size)
    (hj : j ∈ read.stops 2 i) : ∃ n, kinds tokens i j = attributeKinds n := by
  refine (stops_induction hsolves hread (pattern?_grammar 2) rfl hi
    (steady_attributes hsolves i) (P := fun j => i ≤ j ∧ ∃ n, kinds tokens i j = attributeKinds n)
    ⟨le_rfl, 0, kinds_self⟩ (fun j _ hj ⟨hij, n, hn⟩ k hk => ?_) j hj).2
  obtain ⟨hname, heq, hstring, rfl⟩ := kind?_of_mem_attribute hsolves hj hk
  refine ⟨by omega, n + 1, ?_⟩
  rw [kinds_append hij (Nat.le_add_right j 3), hn, attributeKinds_succ,
    kinds_append (Nat.le_succ j) (by omega), kinds_append (Nat.le_succ (j + 1)) (by omega),
    kinds_succ hname, kinds_succ heq, kinds_succ hstring]
  rfl

theorem sentence_of_mem_content_of (hsolves : read.Solves grammar tokens) (hi : i ≤ tokens.size)
    (h : ∀ k ∈ read.stops 17 i, Sentence .element (kinds tokens i k))
    (hj : j ∈ read.stops 24 i) : Sentence .content (kinds tokens i j) := by
  rw [stops_content hsolves hi] at hj
  split at hj
  · rename_i hkind
    obtain rfl := List.mem_singleton.1 hj
    rcases hkind with hkind | hkind
    · rw [kinds_succ hkind]
      exact .charData
    · rw [kinds_succ hkind]
      exact .comment
  · exact .element (h j hj)

theorem kinds_of_mem_contents_of (hsolves : read.Solves grammar tokens)
    (hread : read.Forward grammar tokens.size) (hi : i ≤ tokens.size)
    (h : ∀ j, i ≤ j → j ≤ tokens.size → ∀ k ∈ read.stops 17 j,
      Sentence .element (kinds tokens j k))
    (hj : j ∈ read.stops 5 i) :
    ∃ cs : List (List String), (∀ c ∈ cs, Sentence .content c) ∧ kinds tokens i j = cs.flatten := by
  refine (stops_induction hsolves hread (pattern?_grammar 5) rfl hi (steady_content hsolves hread i)
    (P := fun j => i ≤ j ∧ ∃ cs : List (List String), (∀ c ∈ cs, Sentence .content c) ∧
      kinds tokens i j = cs.flatten)
    ⟨le_rfl, [], List.forall_mem_nil _, kinds_self⟩ (fun j hij hj ⟨_, cs, hcs, hkinds⟩ k hk => ?_)
    j hj).2
  rw [stops_reference hsolves 4 24 rfl rfl rfl hj] at hk
  have hjk := (range_of_mem_stops hread hj hk).1
  refine ⟨hij.trans hjk, cs ++ [kinds tokens j k], ?_, ?_⟩
  · refine List.forall_mem_append.2 ⟨hcs, List.forall_mem_singleton.2 ?_⟩
    exact sentence_of_mem_content_of hsolves hj (h j hij hj) hk
  · rw [kinds_append hij hjk, hkinds, List.flatten_concat]

/-- What the element pattern matches is an element. -/
theorem sentence_of_mem_element (hsolves : read.Solves grammar tokens)
    (hread : read.Forward grammar tokens.size) (hi : i ≤ tokens.size)
    (hj : j ∈ read.stops 17 i) : Sentence .element (kinds tokens i j) := by
  induction hn : tokens.size - i using Nat.strong_induction_on generalizing i j with
  | _ n ih =>
    subst hn
    obtain ⟨hopen, hname, m, hm, h⟩ := (mem_element_iff hsolves hread hi).1 hj
    have hsize := lt_size_of_kind? hname
    obtain ⟨rest, hstops, hle, hm', -⟩ := stops_attributes hsolves hread (i := i + 2) hsize
    have hmem : m ∈ read.stops 2 (i + 2) := by
      rw [hstops, hm]
      exact List.mem_cons_self
    obtain ⟨n, hn⟩ := kinds_of_mem_attributes hsolves hread hsize hmem
    rw [← hm] at hle
    have hbefore : kinds tokens i m = ["<", "name"] ++ attributeKinds n := by
      rw [kinds_append (Nat.le_succ i) (by omega), kinds_append (Nat.le_succ (i + 1)) (by omega),
        kinds_succ hopen, kinds_succ hname, hn]
      rfl
    rcases h with ⟨hclosed, rfl⟩ | ⟨hclose, c, hc, htag, htagName, htagClose, rfl⟩
    · rw [kinds_append (by omega) (Nat.le_succ m), hbefore, kinds_succ hclosed]
      exact .closed n
    · obtain ⟨rest', hstops', -⟩ := stops_contents_of hsolves hread (lt_size_of_kind? hclose)
        (steady_content hsolves hread (m + 1))
      have hmem' : c ∈ read.stops 5 (m + 1) := by
        rw [hstops', hc]
        exact List.mem_cons_self
      have hmc := (range_of_mem_stops hread (lt_size_of_kind? hclose) hmem').1
      obtain ⟨cs, hcs, hcontent⟩ := kinds_of_mem_contents_of hsolves hread
        (lt_size_of_kind? hclose) (fun j hj hsize k hk => ih _ (by omega) hsize hk rfl) hmem'
      rw [kinds_append (j := m) (by omega) (by omega), hbefore,
        kinds_append (Nat.le_succ m) (by omega), kinds_succ hclose, kinds_append hmc (by omega),
        hcontent, kinds_append (Nat.le_succ c) (by omega),
        kinds_append (Nat.le_succ (c + 1)) (by omega), kinds_succ htag, kinds_succ htagName,
        kinds_succ htagClose]
      have hsentence := Sentence.opened n hcs
      simpa only [List.append_assoc, List.singleton_append, List.cons_append, List.nil_append]
        using hsentence

/-! ### Sentences are matched -/

theorem mem_attributes_of_kinds (hsolves : read.Solves grammar tokens)
    (hread : read.Forward grammar tokens.size) (hij : i ≤ j) (hj : j ≤ tokens.size) {n : Nat}
    (h : kinds tokens i j = attributeKinds n) : j ∈ read.stops 2 i := by
  have hi := hij.trans hj
  induction n generalizing j with
  | zero =>
    rw [eq_of_kinds_nil hij hj h]
    exact mem_stops_start hsolves (pattern?_grammar 2) rfl hi
  | succ n ih =>
    rw [attributeKinds_succ] at h
    obtain ⟨m, him, hmj, hbefore, hlast⟩ := exists_of_kinds_append hij hj _ h
    obtain ⟨hname, hlt, hlast⟩ := kind?_of_kinds_cons hmj hj hlast
    obtain ⟨heq, hlt, hlast⟩ := kind?_of_kinds_cons hlt hj hlast
    obtain ⟨hstring, hlt, hlast⟩ := kind?_of_kinds_cons hlt hj hlast
    have hmem := ih him (hmj.trans hj) hbefore
    refine mem_stops_extend hsolves hread (pattern?_grammar 2) rfl hi (steady_attributes hsolves i)
      hmem ?_
    rw [stops_attribute hsolves (hmj.trans hj), if_pos ⟨hname, heq, hstring⟩,
      eq_of_kinds_nil hlt hj hlast]
    exact List.mem_singleton_self _

/-- What comes after attributes tells that they go no further. -/
theorem attributesEnd_eq (hsolves : read.Solves grammar tokens)
    (hread : read.Forward grammar tokens.size) (hi : i ≤ tokens.size) (hj : j ∈ read.stops 2 i)
    (hkind : kind? tokens j ≠ some "name") : attributesEnd read i = j := by
  obtain ⟨rest, hstops, -, -, hrest⟩ := stops_attributes hsolves hread hi
  rw [hstops] at hj
  rcases List.mem_cons.1 hj with rfl | hj
  · rfl
  · exact absurd (hrest j hj).2.2 hkind

/-- What comes after content tells that it goes no further. -/
theorem contentEnd_eq (hsolves : read.Solves grammar tokens)
    (hread : read.Forward grammar tokens.size) (hi : i ≤ tokens.size) (hj : j ∈ read.stops 5 i)
    (hkind : kind? tokens j = some "</") : contentEnd read i = j := by
  obtain ⟨rest, hstops, -, -, hrest⟩ :=
    stops_contents_of hsolves hread hi (steady_content hsolves hread i)
  rw [hstops] at hj
  rcases List.mem_cons.1 hj with rfl | hj
  · rfl
  · obtain ⟨hsize, k, hk, -⟩ := hrest j hj
    rcases kind?_of_mem_content hsolves hsize hk with h | h | h <;> simp [h] at hkind

/-- The pattern of a part. -/
def Part.pattern : Part → PatternId
  | element => 17
  | content => 24

theorem mem_contents_of_kinds_of (hsolves : read.Solves grammar tokens)
    (hread : read.Forward grammar tokens.size) {cs : List (List String)}
    (hcs : ∀ c ∈ cs, ∀ i j, i ≤ j → j ≤ tokens.size → kinds tokens i j = c →
      j ∈ read.stops 24 i) (hij : i ≤ j) (hj : j ≤ tokens.size)
    (h : kinds tokens i j = cs.flatten) : j ∈ read.stops 5 i := by
  have hi := hij.trans hj
  induction cs using List.reverseRecOn generalizing j with
  | nil =>
    rw [eq_of_kinds_nil hij hj h]
    exact mem_stops_start hsolves (pattern?_grammar 5) rfl hi
  | append_singleton cs c ih =>
    obtain ⟨hcs, hc⟩ := List.forall_mem_append.1 hcs
    rw [List.flatten_concat] at h
    obtain ⟨m, him, hmj, hbefore, hlast⟩ := exists_of_kinds_append hij hj _ h
    have hmem := ih hcs him (hmj.trans hj) hbefore
    refine mem_stops_extend hsolves hread (pattern?_grammar 5) rfl hi
      (steady_content hsolves hread i) hmem ?_
    rw [stops_reference hsolves 4 24 rfl rfl rfl (hmj.trans hj)]
    exact hc c (List.mem_singleton_self c) m j hmj hj hlast

/-- Every sentence is matched. -/
theorem mem_stops_of_sentence (hsolves : read.Solves grammar tokens)
    (hread : read.Forward grammar tokens.size) {part : Part} {ks : List String}
    (h : Sentence part ks) (hij : i ≤ j) (hj : j ≤ tokens.size) (hks : kinds tokens i j = ks) :
    j ∈ read.stops part.pattern i := by
  -- the start of an element, and where its attributes end
  have hstart {n : Nat} {i j : Nat} {ks : List String} (hij : i ≤ j) (hj : j ≤ tokens.size)
      (h : kinds tokens i j = ["<", "name"] ++ (attributeKinds n ++ ks)) :
      kind? tokens i = some "<" ∧ kind? tokens (i + 1) = some "name" ∧ ∃ m, i + 2 ≤ m ∧ m ≤ j ∧
        m ∈ read.stops 2 (i + 2) ∧ kinds tokens m j = ks := by
    obtain ⟨hopen, hlt, h⟩ := kind?_of_kinds_cons hij hj h
    obtain ⟨hname, hlt, h⟩ := kind?_of_kinds_cons hlt hj h
    obtain ⟨m, hm, hmj, hattributes, h⟩ :=
      exists_of_kinds_append hlt hj (attributeKinds n) h
    exact ⟨hopen, hname, m, hm, hmj,
      mem_attributes_of_kinds hsolves hread hm (hmj.trans hj) hattributes, h⟩
  induction h generalizing i j with
  | closed n =>
    rw [List.append_assoc] at hks
    obtain ⟨hopen, hname, m, hm, hmj, hmem, hlast⟩ := hstart hij hj hks
    obtain ⟨hclosed, hlt, hlast⟩ := kind?_of_kinds_cons hmj hj hlast
    refine (mem_element_iff hsolves hread (hij.trans hj)).2
      ⟨hopen, hname, m, ?_, .inl ⟨hclosed, ?_⟩⟩
    · exact (attributesEnd_eq hsolves hread (lt_size_of_kind? hname) hmem (by simp [hclosed])).symm
    · exact eq_of_kinds_nil hlt hj hlast
  | @opened n cs hcs ih =>
    rw [List.append_assoc, List.append_assoc, List.append_assoc] at hks
    obtain ⟨hopen, hname, m, hm, hmj, hmem, hlast⟩ := hstart hij hj hks
    obtain ⟨hclose, hlt, hlast⟩ := kind?_of_kinds_cons hmj hj hlast
    obtain ⟨c, hmc, hcj, hcontent, hlast⟩ :=
      exists_of_kinds_append hlt hj cs.flatten hlast
    obtain ⟨htag, hlt', hlast⟩ := kind?_of_kinds_cons hcj hj hlast
    obtain ⟨htagName, hlt', hlast⟩ := kind?_of_kinds_cons hlt' hj hlast
    obtain ⟨htagClose, hlt', hlast⟩ := kind?_of_kinds_cons hlt' hj hlast
    have hmem' : c ∈ read.stops 5 (m + 1) := mem_contents_of_kinds_of hsolves hread
      (fun c hc i j hij hj hkinds => ih c hc hij hj hkinds) hmc (hcj.trans hj) hcontent
    refine (mem_element_iff hsolves hread (hij.trans hj)).2 ⟨hopen, hname, m, ?_,
      .inr ⟨hclose, c, ?_, htag, htagName, htagClose, ?_⟩⟩
    · exact (attributesEnd_eq hsolves hread (lt_size_of_kind? hname) hmem (by simp [hclose])).symm
    · exact (contentEnd_eq hsolves hread (lt_size_of_kind? hclose) hmem' htag).symm
    · exact eq_of_kinds_nil hlt' hj hlast
  | charData =>
    obtain ⟨hkind, hlt, hlast⟩ := kind?_of_kinds_cons hij hj hks
    show j ∈ read.stops 24 i
    rw [stops_content hsolves (hij.trans hj), if_pos (.inl hkind), eq_of_kinds_nil hlt hj hlast]
    exact List.mem_singleton_self _
  | comment =>
    obtain ⟨hkind, hlt, hlast⟩ := kind?_of_kinds_cons hij hj hks
    show j ∈ read.stops 24 i
    rw [stops_content hsolves (hij.trans hj), if_pos (.inr hkind), eq_of_kinds_nil hlt hj hlast]
    exact List.mem_singleton_self _
  | element _ ih =>
    have hmem : j ∈ read.stops 17 i := ih hij hj hks
    show j ∈ read.stops 24 i
    have hopen := ((mem_element_iff hsolves hread (hij.trans hj)).1 hmem).1
    rwa [stops_content hsolves (hij.trans hj), if_neg (by simp [hopen])]

end

end Xml

end ReversibleGrammar
