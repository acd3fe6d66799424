import Redeclaration.Proofs.Declaration.Space
import Redeclaration.Proofs.Token.Interpolation

/-!
The kinds of labels. A label that stands after the operator of a member is a name,
whatever trivia is between the two, and any other label has the kind of its word. Main
statement: the lexer sees the operator exactly if it is the last token other than
trivia, so that no member is ever taken for a keyword.
-/

namespace Redeclaration

open Outline

/-- The kinds of a label that is not joined to others. -/
def Kind.isLabel : Kind → Bool
  | name | reserved | keyword _ => true
  | _ => false

/-- The kinds of labels, alone or joined. -/
def Kind.isWord : Kind → Bool
  | name | qualifiedName | relativeName | reserved | keyword _ => true
  | _ => false

theorem Kind.isWord_of_isLabel (k : Kind) (h : k.isLabel = true) : k.isWord = true := by
  cases k <;> first | rfl | cases h

/-- The word that stands for a keyword. -/
def Keyword.word : Keyword → String
  | namespaceKw => "namespace"
  | classKw => "class"
  | interfaceKw => "interface"
  | traitKw => "trait"
  | enumKw => "enum"
  | functionKw => "function"
  | constKw => "const"
  | useKw => "use"

/-- The text of a token in lower case. -/
def Token.word (t : Token) : String :=
  String.ofList (t.text.toList.map Char.toLower)

/-- The last token other than trivia is the operator of a member. -/
def AfterMember (ts : List Token) : Prop :=
  ∃ front op gap, ts = front ++ op :: gap ∧ op.kind = .punct ∧
    (op.text = "->" ∨ op.text = "?->" ∨ op.text = "::") ∧ ∀ u ∈ gap, u.isTrivia = true

theorem isMemberOperator_iff (t : Token) :
    t.isMemberOperator = true ↔
      t.kind = .punct ∧ (t.text = "->" ∨ t.text = "?->" ∨ t.text = "::") := by
  simp [Token.isMemberOperator, or_assoc]

theorem isTrivia_of_punct (t : Token) (h : t.kind = .punct) : t.isTrivia = false := by
  simp [Token.isTrivia, h, Kind.isTrivia]

/-- One more token: trivia leaves things as they are, and any other token decides. -/
theorem afterMember_snoc (ts : List Token) (t : Token) :
    AfterMember (ts ++ [t]) ↔
      if t.isTrivia then AfterMember ts else t.isMemberOperator = true := by
  constructor
  · rintro ⟨front, op, gap, hsplit, hkind, htext, hgap⟩
    rcases List.eq_nil_or_concat gap with rfl | ⟨gap, u, rfl⟩
    · obtain ⟨-, ht⟩ := List.append_inj' hsplit rfl
      cases ht
      rw [isTrivia_of_punct t hkind]
      exact (isMemberOperator_iff t).2 ⟨hkind, htext⟩
    · rw [List.concat_eq_append, ← List.cons_append, ← List.append_assoc] at hsplit
      obtain ⟨rfl, ht⟩ := List.append_inj' hsplit rfl
      cases ht
      rw [if_pos (hgap t (by simp))]
      exact ⟨front, op, gap, rfl, hkind, htext, fun u hu => hgap u (by simp [hu])⟩
  · intro h
    split at h
    · rename_i htrivia
      obtain ⟨front, op, gap, rfl, hkind, htext, hgap⟩ := h
      refine ⟨front, op, gap ++ [t], by simp, hkind, htext, ?_⟩
      intro u hu
      rcases List.mem_append.1 hu with hu | hu
      · exact hgap u hu
      · rwa [List.mem_singleton.1 hu]
    · obtain ⟨hkind, htext⟩ := (isMemberOperator_iff t).1 h
      exact ⟨ts, t, [], rfl, hkind, htext, by simp⟩

/-! Words and kinds. -/

theorem ofWord?_eq_some_iff (w : String) (k : Keyword) :
    Keyword.ofWord? w = some k ↔ w = k.word ∧ w ≠ "enum" := by
  constructor
  · intro h
    unfold Keyword.ofWord? at h
    split at h
    case h_8 => cases h
    all_goals
      cases h
      decide
  · rintro ⟨rfl, henum⟩
    cases k with
    | enumKw => exact absurd rfl henum
    | _ => rfl

/-- No word has two kinds. -/
theorem word_notMem_reservedWords (k : Keyword) : k.word ∉ reservedWords := by
  cases k <;> decide +kernel

theorem wordKind_enum (label rest : List Char)
    (h : String.ofList (label.map Char.toLower) = "enum") :
    wordKind label rest = if enumFollows rest then .keyword .enumKw else .name := by
  have hreserved : "enum" ∉ reservedWords := word_notMem_reservedWords .enumKw
  simp [wordKind, h, Keyword.ofWord?, hreserved]

theorem wordKind_of_ne_enum (label rest : List Char) (w : String)
    (hw : String.ofList (label.map Char.toLower) = w) (henum : w ≠ "enum") :
    (∀ k, wordKind label rest = .keyword k ↔ w = k.word) ∧
      (wordKind label rest = .reserved ↔ w ∈ reservedWords) ∧
      (wordKind label rest = .name ↔ (∀ k, w ≠ Keyword.word k) ∧ w ∉ reservedWords) := by
  have hkind : wordKind label rest = ((Keyword.ofWord? w).map Kind.keyword).getD
      (if w ∈ reservedWords then .reserved else .name) := by
    unfold wordKind
    cases hof : Keyword.ofWord? w <;> simp [hw, hof, henum]
  rw [hkind]
  cases hof : Keyword.ofWord? w with
  | some k =>
    obtain ⟨rfl, -⟩ := (ofWord?_eq_some_iff w k).1 hof
    have hreserved := word_notMem_reservedWords k
    have hinjective (k' : Keyword) : k.word = k'.word → k = k' := by
      cases k <;> cases k' <;> first | exact fun _ => rfl | decide
    refine ⟨fun k' => ?_, by simp [hreserved], by simp⟩
    simp only [Option.map_some, Option.getD_some, Kind.keyword.injEq]
    exact ⟨congrArg _, hinjective k'⟩
  | none =>
    have hno (k : Keyword) : w ≠ k.word := by
      intro hk
      rw [(ofWord?_eq_some_iff w k).2 ⟨hk, henum⟩] at hof
      cases hof
    by_cases hreserved : w ∈ reservedWords <;> simp [hno, hreserved]

namespace Lexer

/-- The state of the lexer knows whether the operator of a member came last. -/
theorem reaches_member (source : List Char) (ts : List Token) (r : Reading) (rest : List Char)
    (h : Reaches source ts r rest) : r.member = true ↔ AfterMember ts := by
  induction h with
  | start =>
    refine ⟨nofun, ?_⟩
    rintro ⟨front, op, gap, hnil, -⟩
    simp at hnil
  | @step ts r c cs l before hl ih =>
    rw [afterMember_snoc]
    simp only [advance]
    split
    · exact ih
    · rfl

/-- A lexeme of code, by what it starts with. -/
inductive ReadsCode (r : Reading) (waiting : List Interruption) (c : Char) (cs : List Char)
    (l : Lexeme) : Prop
  | openBrace (starts : c = '{') (kind : l.kind = .openBrace)
  | closeBrace (starts : c = '}') (kind : l.kind = .closeBrace)
  | closeTag (starts : startsCloseTag (c :: cs) = true) (kind : l.kind = .closeTag)
  | block (starts : ['/', '*'].isPrefixOf (c :: cs) = true)
      (reads : blockComment waiting cs = .ok l)
  | string (o : Opening) (starts : opening? (c :: cs) = some o)
      (reads : stringStart waiting o cs = .ok l)
  | plain (tag : startsCloseTag (c :: cs) = false)
      (block : ['/', '*'].isPrefixOf (c :: cs) = false)
      (kind : l.kind = (plain r.member c cs).1) (more : l.more = (plain r.member c cs).2)
      (next : c ≠ ';' → l.next = .code waiting)

theorem code_reads (r : Reading) (waiting : List Interruption) (c : Char) (cs : List Char)
    (l : Lexeme) (h : code r waiting c cs = .ok l) : ReadsCode r waiting c cs l := by
  unfold code at h
  split at h
  · cases h
    exact .openBrace (beq_iff_eq.1 ‹_›) rfl
  split at h
  · cases h
    exact .closeBrace (beq_iff_eq.1 ‹_›) rfl
  split at h
  · split at h
    · cases h
      exact .closeTag ‹_› rfl
    · cases h
  rename_i htag
  split at h
  · exact .block ‹_› h
  rename_i hblock
  split at h
  · exact .string _ ‹_› h
  · cases h
    refine .plain (Bool.eq_false_of_not_eq_true htag) (Bool.eq_false_of_not_eq_true hblock)
      rfl rfl ?_
    intro hc
    simp [hc]

theorem nameKind_isLabel (member : Bool) (text rest : List Char)
    (h : (nameKind member text rest).isLabel = true) :
    nameKind member text rest = if member then .name else wordKind text rest := by
  unfold nameKind at h ⊢
  split
  · rename_i hback
    rw [if_pos hback] at h
    split at h <;> cases h
  · rfl

/-- Labels, or a lexeme of another kind. -/
theorem plain_word (member : Bool) (c : Char) (cs : List Char) :
    (plain member c cs).1.isWord = false ∨
      isLabelStart c = true ∧ plain member c cs =
        (nameKind member (c :: cs.take (nameEnd 0 cs)) (cs.drop (nameEnd 0 cs)),
          nameEnd 0 cs) := by
  unfold plain
  split
  · exact .inl rfl
  split
  · exact .inl rfl
  split
  · exact .inl rfl
  split
  · exact .inl rfl
  split
  · exact .inl rfl
  split
  · exact .inr ⟨‹_›, rfl⟩
  · exact .inl rfl

/-- A lexeme of code that is made of labels: it starts with a label, goes on as far as the
name does, and leaves the mode as it is. -/
structure ReadsWord (r : Reading) (waiting : List Interruption) (c : Char) (cs : List Char)
    (l : Lexeme) : Prop where
  starts : isLabelStart c = true
  more : l.more = nameEnd 0 cs
  next : l.next = .code waiting
  kind : l.kind = nameKind r.member (c :: cs.take l.more) (cs.drop l.more)

theorem code_word (r : Reading) (waiting : List Interruption) (c : Char) (cs : List Char)
    (l : Lexeme) (h : code r waiting c cs = .ok l) (hk : l.kind.isWord = true) :
    ReadsWord r waiting c cs l := by
  cases code_reads r waiting c cs l h with
  | openBrace _ hkind | closeBrace _ hkind | closeTag _ hkind =>
    rw [hkind] at hk
    cases hk
  | block _ hreads =>
    rcases (blockComment_cases waiting cs l hreads).1 with hkind | hkind
    all_goals
      rw [hkind] at hk
      cases hk
  | string o _ hreads =>
    rw [(stringStart_cases waiting o cs l hreads).1] at hk
    cases hk
  | plain _ _ hkind hmore hnext =>
    rcases plain_word r.member c cs with hother | ⟨hstart, hplain⟩
    · rw [hkind, hother] at hk
      cases hk
    · have hc : c ≠ ';' := by
        rintro rfl
        cases hstart
      simp only [hplain] at hkind hmore
      rw [← hmore] at hkind
      exact ⟨hstart, hmore, hnext hc, hkind⟩

theorem lexeme_word (r : Reading) (c : Char) (cs : List Char) (l : Lexeme)
    (h : lexeme r c cs = .ok l) (hk : l.kind.isWord = true) :
    ∃ waiting, ReadsWord r waiting c cs l := by
  unfold lexeme at h
  cases hm : r.mode with
  | html =>
    rw [hm] at h
    cases h
    unfold html at hk
    split at hk <;> cases hk
  | code waiting =>
    rw [hm] at h
    exact ⟨waiting, code_word r waiting c cs l h hk⟩
  | string closing waiting =>
    rw [hm] at h
    rcases stringRest_cases closing waiting c cs l h with ⟨hkind, -⟩ | ⟨hkind, -⟩
    · rw [hkind] at hk
      cases hk
    · cases hl : l.kind <;> simp_all [Kind.isWord, Kind.opensInterpolation]
  | data =>
    rw [hm] at h
    cases h
    cases hk

/-- A lexeme of code that is a label: it leaves the mode as it is, and its kind hangs on
the operator before it and on its word. -/
structure ReadsLabel (r : Reading) (waiting : List Interruption) (c : Char) (cs : List Char)
    (l : Lexeme) : Prop where
  next : l.next = .code waiting
  kind : l.kind = if r.member then .name else wordKind (c :: cs.take l.more) (cs.drop l.more)

theorem lexeme_label (r : Reading) (c : Char) (cs : List Char) (l : Lexeme)
    (h : lexeme r c cs = .ok l) (hk : l.kind.isLabel = true) :
    ∃ waiting, ReadsLabel r waiting c cs l := by
  obtain ⟨waiting, hword⟩ := lexeme_word r c cs l h (l.kind.isWord_of_isLabel hk)
  have hkind := hword.kind
  rw [hkind] at hk
  rw [nameKind_isLabel _ _ _ hk] at hkind
  exact ⟨waiting, hword.next, hkind⟩

/-- The label at a place of a run, with the state before it. -/
theorem label_of_tokenize (source : String) (pre post : List Token) (t : Token)
    (h : tokenize source = .ok (pre ++ t :: post)) (ht : t.kind.isLabel = true) :
    ∃ r c cs l waiting, Reaches source.toList pre r (c :: cs) ∧ lexeme r c cs = .ok l ∧
      t = cut r l c cs ∧ ReadsLabel r waiting c cs l := by
  obtain ⟨r, hr⟩ := reaches_of_tokenize source _ h
  obtain ⟨r', c, cs, l, hpre, hl, rfl⟩ := reaches_at _ _ r [] hr pre post t rfl
  obtain ⟨waiting, hlabel⟩ := lexeme_label r' c cs l hl ht
  exact ⟨r', c, cs, l, waiting, hpre, hl, rfl, hlabel⟩

end Lexer

/-- A label after the operator of a member is a name, which opens no capture of a
declaration or a namespace. Any other label has the kind of its word, where only the
word enum leaves a choice. -/
theorem tokenize_labels (source : String) (pre post : List Token) (t : Token)
    (h : tokenize source = .ok (pre ++ t :: post)) (ht : t.kind.isLabel = true) :
    (AfterMember pre → t.kind = .name ∧
      ∀ s : Scan, (s.step t).capture = s.capture.map (·.extend t)) ∧
    (¬ AfterMember pre → t.word ≠ "enum" →
      (∀ k, t.kind = .keyword k ↔ t.word = k.word) ∧
      (t.kind = .reserved ↔ t.word ∈ reservedWords) ∧
      (t.kind = .name ↔ (∀ k, t.word ≠ Keyword.word k) ∧ t.word ∉ reservedWords)) := by
  obtain ⟨r, c, cs, l, waiting, hpre, -, rfl, hlabel⟩ :=
    Lexer.label_of_tokenize source pre post t h ht
  have hmember := Lexer.reaches_member _ pre r _ hpre
  have hkind : (Lexer.cut r l c cs).kind = _ := hlabel.kind
  constructor
  · intro hafter
    rw [hmember.2 hafter, if_pos rfl] at hkind
    refine ⟨hkind, fun s => ?_⟩
    have hpasses : passes (Lexer.cut r l c cs) = true := by
      simp [passes, hkind, Kind.isNameFragment]
    rw [Scan.step_of_passes s _ hpasses]
  · intro hafter henum
    rw [if_neg (fun htrue => hafter (hmember.1 htrue))] at hkind
    rw [hkind]
    apply wordKind_of_ne_enum _ _ _ ?_ henum
    rw [Token.word, Lexer.cut_text]

theorem tokenize_labels_member :
    ∃ pre t post, tokenize "<?php A::/**/Class;" = .ok (pre ++ t :: post) ∧
      t.text = "Class" ∧ t.kind.isLabel = true ∧ AfterMember pre ∧ t.kind = .name := by
  have h : tokenize "<?php A::/**/Class;" = .ok
      ([⟨.openTag, "<?php ", 1⟩, ⟨.name, "A", 1⟩, ⟨.punct, "::", 1⟩, ⟨.comment, "/**/", 1⟩] ++
        ⟨.name, "Class", 1⟩ :: [⟨.punct, ";", 1⟩]) :=
    tokenize_eq_ok _ _ (by decide +kernel)
  have hafter : AfterMember [⟨.openTag, "<?php ", 1⟩, ⟨.name, "A", 1⟩, ⟨.punct, "::", 1⟩,
      ⟨.comment, "/**/", 1⟩] :=
    ⟨[⟨.openTag, "<?php ", 1⟩, ⟨.name, "A", 1⟩], ⟨.punct, "::", 1⟩, [⟨.comment, "/**/", 1⟩], rfl,
      rfl, .inr (.inr rfl), by decide⟩
  exact ⟨_, _, _, h, rfl, rfl, hafter, ((tokenize_labels _ _ _ _ h rfl).1 hafter).1⟩

end Redeclaration
