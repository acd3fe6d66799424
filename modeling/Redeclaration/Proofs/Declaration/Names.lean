import Redeclaration.Proofs.Token.Labels
import Redeclaration.Proofs.Token.Plain

/-!
The form of declared names. The lexer cuts names out of a source in one piece, labels and
the backslashes between them, and the scan puts such pieces together, behind the name of a
namespace that was put together in the same way. Main statement: every declared name is made
of labels, joined by single backslashes.
-/

namespace Redeclaration

/-- A label: a character that a label may start with, and such as may stand inside of it. -/
structure IsLabel (cs : List Char) : Prop where
  starts : startsLabel cs = true
  chars : ∀ c ∈ cs, isLabelChar c = true

/-- One or more labels, joined by single backslashes. -/
inductive Qualified : List Char → Prop
  | label {label : List Char} (isLabel : IsLabel label) : Qualified label
  | join {label rest : List Char} (isLabel : IsLabel label) (qualified : Qualified rest) :
      Qualified (label ++ '\\' :: rest)

theorem isLabelChar_of_isLabelStart (c : Char) (h : isLabelStart c = true) :
    isLabelChar c = true := by
  rw [isLabelChar, h, Bool.true_or]

/-- What goes on with label characters is still one label. -/
theorem IsLabel.append {label more : List Char} (h : IsLabel label)
    (hmore : ∀ c ∈ more, isLabelChar c = true) : IsLabel (label ++ more) where
  starts := by
    obtain ⟨c, rest, rfl⟩ : ∃ c rest, label = c :: rest := by
      apply List.exists_cons_of_ne_nil
      intro hnil
      have hstarts := h.starts
      rw [hnil] at hstarts
      cases hstarts
    exact h.starts
  chars := by
    intro c hc
    rcases List.mem_append.1 hc with hc | hc
    · exact h.chars c hc
    · exact hmore c hc

theorem isLabel_singleton (c : Char) (h : isLabelStart c = true) : IsLabel [c] where
  starts := h
  chars := by
    intro d hd
    rw [List.mem_singleton.1 hd]
    exact isLabelChar_of_isLabelStart c h

namespace Qualified

/-- Two names side by side are one name: the last label of the first and the first label of
the second become one. -/
theorem append {a b : List Char} (ha : Qualified a) (hb : Qualified b) : Qualified (a ++ b) := by
  induction ha with
  | label hlabel =>
    cases hb with
    | label hother => exact .label (hlabel.append hother.chars)
    | join hother hrest =>
      rw [← List.append_assoc]
      exact .join (hlabel.append hother.chars) hrest
  | join hlabel hrest ih =>
    rw [List.append_assoc, List.cons_append]
    exact .join hlabel ih

/-- A name behind the name of its namespace. -/
theorem within {a b : List Char} (ha : Qualified a) (hb : Qualified b) :
    Qualified (a ++ '\\' :: b) := by
  induction ha with
  | label hlabel => exact .join hlabel hb
  | join hlabel hrest ih =>
    rw [List.append_assoc, List.cons_append]
    exact .join hlabel ih

theorem ne_nil {cs : List Char} (h : Qualified cs) : cs ≠ [] := by
  intro hnil
  cases h with
  | label hlabel =>
    have hstarts := hlabel.starts
    rw [hnil] at hstarts
    cases hstarts
  | join hlabel hrest => exact List.cons_ne_nil _ _ (List.append_eq_nil_iff.1 hnil).2

theorem mem {cs : List Char} (h : Qualified cs) :
    ∀ c ∈ cs, c = '\\' ∨ isLabelChar c = true := by
  induction h with
  | label hlabel =>
    intro c hc
    exact .inr (hlabel.chars c hc)
  | join hlabel hrest ih =>
    intro c hc
    rcases List.mem_append.1 hc with hc | hc
    · exact .inr (hlabel.chars c hc)
    · rcases List.mem_cons.1 hc with hc | hc
      · exact .inl hc
      · exact ih c hc

/-- Every backslash stands between two names. -/
theorem split {cs front back : List Char} (h : Qualified cs) (hsplit : cs = front ++ '\\' :: back) :
    Qualified front ∧ Qualified back := by
  have hback {label : List Char} (hlabel : IsLabel label) : '\\' ∉ label := by
    intro hmem
    cases hlabel.chars _ hmem
  induction h generalizing front with
  | label hlabel =>
    apply absurd (hback hlabel)
    rw [hsplit, not_not]
    exact List.mem_append_right front List.mem_cons_self
  | @join label rest hlabel hrest ih =>
    -- The backslash is the one behind the first label, or one of those in the rest.
    rcases List.append_eq_append_iff.1 hsplit with ⟨more, hfront, hmore⟩ | ⟨more, hlabel', hmore⟩
    · cases more with
      | nil =>
        cases hmore
        rw [hfront, List.append_nil]
        exact ⟨.label hlabel, hrest⟩
      | cons d more =>
        obtain ⟨rfl, hrest'⟩ := List.cons_eq_cons.1 hmore
        obtain ⟨hbefore, hafter⟩ := ih hrest'
        rw [hfront]
        exact ⟨.join hlabel hbefore, hafter⟩
    · cases more with
      | nil =>
        cases hmore
        rw [List.append_nil] at hlabel'
        rw [← hlabel']
        exact ⟨.label hlabel, hrest⟩
      | cons d more =>
        obtain ⟨rfl, -⟩ := List.cons_eq_cons.1 hmore
        apply absurd (hback hlabel)
        rw [hlabel', not_not]
        exact List.mem_append_right front List.mem_cons_self

end Qualified

/-! The names that the lexer cuts out. -/

/-- A name goes on behind a label as far as labels follow. The second part is what a
backslash needs: the name that starts behind it. -/
theorem qualified_nameEnd (cs : List Char) :
    (∀ label, IsLabel label → Qualified (label ++ cs.take (nameEnd 0 cs))) ∧
      (startsLabel cs = true → Qualified (cs.take (nameEnd 0 cs))) := by
  induction cs with
  | nil =>
    refine ⟨?_, nofun⟩
    intro label hlabel
    rw [List.take_nil, List.append_nil]
    exact .label hlabel
  | cons c cs ih =>
    obtain ⟨ihlabel, ihname⟩ := ih
    constructor
    · intro label hlabel
      unfold nameEnd
      by_cases hc : isLabelChar c = true
      · rw [hc, Bool.true_or, if_pos rfl, Lexer.nameEnd_eq, Nat.add_comm, List.take_succ_cons,
          List.append_cons]
        apply ihlabel
        apply hlabel.append
        intro d hd
        rwa [List.mem_singleton.1 hd]
      · rw [Bool.eq_false_of_not_eq_true hc, Bool.false_or]
        by_cases hnext : (c == '\\' && startsLabel cs) = true
        · rw [if_pos hnext, Lexer.nameEnd_eq, Nat.add_comm, List.take_succ_cons]
          obtain ⟨hback, hstarts⟩ := Bool.and_eq_true_iff.1 hnext
          rw [beq_iff_eq.1 hback]
          exact .join hlabel (ihname hstarts)
        · rw [if_neg hnext, List.take_zero, List.append_nil]
          exact .label hlabel
    · intro hstarts
      have hc : isLabelChar c = true := isLabelChar_of_isLabelStart c hstarts
      unfold nameEnd
      rw [hc, Bool.true_or, if_pos rfl, Lexer.nameEnd_eq, Nat.add_comm, List.take_succ_cons]
      exact ihlabel [c] (isLabel_singleton c hstarts)

/-- Every part of a name that the lexer finds is made of labels. -/
theorem qualified_of_tokenize (source : String) (ts : List Token) (t : Token)
    (h : tokenize source = .ok ts) (ht : t ∈ ts) (hfragment : t.kind.isNameFragment = true) :
    Qualified t.text.toList := by
  obtain ⟨r, hr⟩ := Lexer.reaches_of_tokenize source ts h
  obtain ⟨pre, post, hts⟩ := List.append_of_mem ht
  obtain ⟨r', c, cs, l, -, hl, rfl⟩ := Lexer.reaches_at _ ts r [] hr pre post t hts
  have hword : l.kind.isWord = true := by
    change l.kind.isNameFragment = true at hfragment
    cases hk : l.kind <;> rw [hk] at hfragment <;> first | rfl | cases hfragment
  obtain ⟨waiting, hreads⟩ := Lexer.lexeme_word r' c cs l hl hword
  rw [Lexer.cut_text, hreads.more]
  exact (qualified_nameEnd cs).1 [c] (isLabel_singleton c hreads.starts)

namespace Scan

/-- What is read so far is nothing or a name, and so is the namespace in force, which has a
backslash at its end. -/
structure Spelled (s : Scan) : Prop where
  capture : ∀ c ∈ s.capture, c.name = "" ∨ Qualified c.name.toList
  qualifier : s.qualifier = "" ∨ ∃ space, Qualified space ∧ s.qualifier.toList = space ++ ['\\']

theorem spelled_extend (c : Capture) (t : Token) (hc : c.name = "" ∨ Qualified c.name.toList)
    (ht : t.kind.isNameFragment = true → Qualified t.text.toList) :
    (c.extend t).name = "" ∨ Qualified (c.extend t).name.toList := by
  unfold Capture.extend
  by_cases hfragment : t.kind.isNameFragment = true
  · rw [if_pos hfragment]
    rcases hc with hc | hc
    · rw [hc, String.empty_append]
      exact .inr (ht hfragment)
    · rw [String.toList_append]
      exact .inr (hc.append (ht hfragment))
  · rw [if_neg hfragment, String.append_empty]
    exact hc

theorem spelled_qualifierOf (name : String) (h : name = "" ∨ Qualified name.toList) :
    qualifierOf name = "" ∨
      ∃ space, Qualified space ∧ (qualifierOf name).toList = space ++ ['\\'] := by
  unfold qualifierOf
  rcases h with rfl | h
  · exact .inl rfl
  · have hne : ¬ (name == "") = true := by
      intro hempty
      rw [beq_iff_eq.1 hempty] at h
      exact h.ne_nil rfl
    rw [if_neg hne]
    exact .inr ⟨name.toList, h, String.toList_append⟩

theorem spelled_finish (s : Scan) (t : Token) (hs : s.Spelled) : (s.finish t).Spelled where
  capture := by
    intro c hc
    rw [finish_capture] at hc
    cases hc
  qualifier := by
    unfold finish
    split
    · rename_i line name hcapture
      exact spelled_qualifierOf name (hs.capture _ hcapture)
    · exact hs.qualifier

/-- A token keeps names and namespaces well spelled, if its own text is where it is a part
of a name. -/
theorem spelled_step (s : Scan) (t : Token) (hs : s.Spelled)
    (ht : t.kind.isNameFragment = true → Qualified t.text.toList) : (s.step t).Spelled := by
  rcases s.step_cases t with ⟨c, hstart, hstep⟩ | ⟨-, -, hstep⟩ | ⟨-, -, hstep⟩
  · -- A capture starts without a name.
    obtain ⟨k, -, -, -, hname, -⟩ := Outline.start?_eq_some s.afterUse t c hstart
    rw [hstep]
    refine ⟨?_, hs.qualifier⟩
    intro c' hc'
    rw [← Option.some.inj hc']
    exact .inl hname
  · have hfinish := spelled_finish s t hs
    rw [hstep]
    exact ⟨hfinish.capture, hfinish.qualifier⟩
  · rw [hstep]
    refine ⟨?_, hs.qualifier⟩
    intro c' hc'
    obtain ⟨c, hc, rfl⟩ := Option.map_eq_some_iff.1 hc'
    exact spelled_extend c t (hs.capture c hc) ht

theorem qualified_completed? (s : Scan) (t : Token) (d : Declaration) (hs : s.Spelled)
    (h : s.completed? t = some d) : Qualified d.name.toList := by
  unfold completed? at h
  split at h
  · rename_i group line name hcapture
    split at h
    · rename_i hends
      cases h
      have hne : name ≠ "" := by
        intro hempty
        simp [hempty] at hends
      have hname : Qualified name.toList := (hs.capture _ hcapture).resolve_left hne
      rcases hs.qualifier with hempty | ⟨space, hspace, htext⟩
      · rw [hempty, String.empty_append]
        exact hname
      · rw [String.toList_append, htext, List.append_assoc]
        exact hspace.within hname
    · cases h
  · cases h

theorem qualified_declarations (s : Scan) (ts : List Token) (hs : s.Spelled)
    (hts : ∀ t ∈ ts, t.kind.isNameFragment = true → Qualified t.text.toList) :
    ∀ d ∈ s.declarations ts, Qualified d.name.toList := by
  induction ts generalizing s with
  | nil => simp [declarations]
  | cons t ts ih =>
    intro d hd
    rcases List.mem_append.1 hd with hd | hd
    · exact qualified_completed? s t d hs (Option.mem_toList.1 hd)
    · apply ih (s.step t) (spelled_step s t hs (hts t List.mem_cons_self)) _ d hd
      intro u hu
      exact hts u (List.mem_cons_of_mem t hu)

end Scan

/-- The characters of a label within ASCII. -/
theorem ascii_of_isLabelChar (c : Char) (h : isLabelChar c = true) (hascii : c.toNat ≤ 127) :
    c = '_' ∨ c.isAlphanum = true := by
  have hnot : ¬ 127 < c.toNat := by omega
  simp only [isLabelChar, isLabelStart, hnot, decide_false, Bool.or_false, Bool.or_eq_true,
    beq_iff_eq] at h
  rcases h with (h | h) | h
  · exact .inl h
  · exact .inr (by rw [Char.isAlphanum, h, Bool.true_or])
  · exact .inr (by rw [Char.isAlphanum, h, Bool.or_true])

/-- The names of all declarations of a source are made of one or more labels, joined by
single backslashes. So no name is empty, a label ends before and starts behind every
backslash, and the only characters of ASCII are letters, digits, underscores and
backslashes. -/
theorem declarationsIn_names (source : String) (ts : List Token) (d : Declaration)
    (h : tokenize source = .ok ts) (hd : d ∈ declarationsIn ts) :
    Qualified d.name.toList ∧ d.name ≠ "" ∧
      (∀ front back, d.name.toList = front ++ '\\' :: back →
        Qualified front ∧ Qualified back) ∧
      ∀ c ∈ d.name.toList, c.toNat ≤ 127 → c = '\\' ∨ c = '_' ∨ c.isAlphanum = true := by
  have hstart : Scan.Spelled {} := ⟨nofun, .inl rfl⟩
  have hname : Qualified d.name.toList := by
    apply Scan.qualified_declarations {} ts hstart _ d hd
    intro t ht hfragment
    exact qualified_of_tokenize source ts t h ht hfragment
  refine ⟨hname, ?_, ?_, ?_⟩
  · intro hempty
    rw [hempty] at hname
    exact hname.ne_nil rfl
  · intro front back hsplit
    exact hname.split hsplit
  · intro c hc hascii
    rcases hname.mem c hc with hback | hlabel
    · exact .inl hback
    · exact .inr (ascii_of_isLabelChar c hlabel hascii)

/-- Names side by side, behind a namespace of two labels. -/
def mergedTokens : List Token :=
  [⟨.openTag, "<?php ", 1⟩, ⟨.keyword .namespaceKw, "namespace", 1⟩, ⟨.whitespace, " ", 1⟩,
    ⟨.qualifiedName, "A\\B", 1⟩, ⟨.punct, ";", 1⟩, ⟨.keyword .classKw, "class", 1⟩,
    ⟨.whitespace, " ", 1⟩, ⟨.name, "C", 1⟩, ⟨.whitespace, " ", 1⟩,
    ⟨.qualifiedName, "D\\É2", 1⟩, ⟨.openBrace, "\x7b", 1⟩, ⟨.closeBrace, "\x7d", 1⟩]

theorem declarationsIn_names_merged :
    tokenize "<?php namespace A\\B;class C D\\É2\x7b\x7d" = .ok mergedTokens ∧
      ⟨.type, "A\\B\\CD\\É2", 1⟩ ∈ declarationsIn mergedTokens ∧
      Qualified "A\\B\\CD\\É2".toList ∧ Qualified "A\\B".toList ∧ Qualified "CD\\É2".toList := by
  have h : tokenize "<?php namespace A\\B;class C D\\É2\x7b\x7d" = .ok mergedTokens :=
    tokenize_eq_ok _ _ (by decide +kernel)
  have hd : ⟨.type, "A\\B\\CD\\É2", 1⟩ ∈ declarationsIn mergedTokens := by decide +kernel
  obtain ⟨hname, -, hsplit, -⟩ := declarationsIn_names _ _ _ h hd
  exact ⟨h, hd, hname, hsplit "A\\B".toList "CD\\É2".toList (by decide +kernel)⟩

end Redeclaration
