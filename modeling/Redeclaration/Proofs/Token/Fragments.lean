import Redeclaration.Proofs.Token.Loops

/-!
The characters that the loops carry along. A loop that reads a string keeps what it has passed,
until a token is made of it. Main statement: in every state of a run the texts of the tokens, what
is passed since and what is left are the source that the run started with, and so are the texts
of the tokens at its end.
-/

namespace Redeclaration.Lexer

/-- The text of the token that a loop is about to make. -/
def Loop.passed : Loop → List Char
  | .sections | .code _ => []
  | .single passed _ | .nowdoc _ _ passed _ | .interpolated _ _ passed _ => passed

/-- The texts of tokens, one after the other. -/
def texts (ts : List Token) : List Char :=
  ts.flatMap (·.text.toList)

namespace State

variable (s : State)

/-- What has been made tokens of, what is passed since, and what is left. -/
def sourceWith (passed : List Char) : List Char :=
  texts s.found ++ passed ++ s.rest

def source : List Char :=
  s.sourceWith s.loop.passed

theorem source_of_loop (loop : Loop) (hs : s.loop = loop) :
    s.source = s.sourceWith loop.passed := by
  rw [source, hs]

/-- A token takes what is passed, and the characters that are cut off what is left. -/
theorem sourceWith_cut (kind : Kind) (passed : List Char) (n : Nat) (loop : Loop) :
    (s.cut kind passed n loop).sourceWith [] = s.sourceWith passed := by
  unfold sourceWith cut texts
  dsimp only
  rw [List.flatMap_append, List.flatMap_singleton, String.toList_ofList, List.append_nil,
    List.append_assoc, List.append_assoc, List.append_assoc, List.take_append_drop]

/-- A loop that passes some characters has to carry them along. -/
theorem sourceWith_pass (passed : List Char) (n : Nat) (loop : Loop) :
    (s.pass n loop).sourceWith (passed ++ s.rest.take n) = s.sourceWith passed := by
  unfold sourceWith pass
  dsimp only
  rw [List.append_assoc, List.append_assoc, List.append_assoc, List.take_append_drop]

/-- No character of the source is lost by a turn, and none is added. -/
def Keeps (text : List Char) : Turn State Answer → Prop :=
  Turn.All (·.source = text) fun answer => ∀ ts, answer = .ok ts → texts ts = text

theorem keeps_fail (fault : Fault) (text : List Char) : Keeps text (s.fail fault) := nofun

/-- A state that has nothing left to read has made tokens of all. -/
theorem keeps_found (hrest : s.rest = []) :
    Keeps (s.sourceWith []) (.finish (.ok s.found)) := by
  intro ts hts
  cases hts
  rw [sourceWith, hrest, List.append_nil, List.append_nil]

theorem sections_keeps : Keeps (s.sourceWith []) s.sections := by
  unfold sections
  dsimp only
  generalize hs' : (if htmlLength s.rest = 0 then s
    else s.cut .inlineHtml [] (htmlLength s.rest) .sections) = s'
  have hsource : s'.sourceWith [] = s.sourceWith [] := by
    rw [← hs']
    split
    · rfl
    · exact s.sourceWith_cut ..
  rw [← hsource]
  split
  · exact s'.keeps_found ‹_›
  · exact s'.sourceWith_cut ..

theorem endCode_keeps : Keeps (s.sourceWith []) s.endCode := by
  unfold endCode
  split
  · dsimp only
    split
    · exact s.keeps_found ‹_›
    · have hcut := keeps_found (s.cut .inlineHtml [] s.rest.length .sections) List.drop_length
      rwa [sourceWith_cut] at hcut
  · rfl

theorem openBrace_keeps (waiting : List Interruption) :
    Keeps (s.sourceWith []) (s.openBrace waiting) := by
  cases waiting <;> exact s.sourceWith_cut ..

theorem closeBrace_keeps (waiting : List Interruption) :
    Keeps (s.sourceWith []) (s.closeBrace waiting) := by
  fun_cases closeBrace s waiting <;> exact s.sourceWith_cut ..

theorem openString_source (o : Opening) (waiting : List Interruption) :
    (s.openString o waiting).source = s.sourceWith [] := by
  have hpass := s.sourceWith_pass [] o.length
  unfold openString
  cases o.quoting <;> exact hpass _

theorem code_keeps (waiting : List Interruption) :
    Keeps (s.sourceWith []) (s.code waiting) := by
  unfold code
  split
  · split
    · exact s.endCode_keeps
    · exact s.keeps_fail _ _
  rename_i c cs hcs
  split
  · exact s.openBrace_keeps waiting
  split
  · exact s.closeBrace_keeps waiting
  split
  · split
    · rw [← s.sourceWith_cut .closeTag [] _ (.code [])]
      exact endCode_keeps _
    · exact s.keeps_fail _ _
  split
  · exact s.keeps_fail _ _
  · exact s.openString_source ..
  · rename_i kind n _
    rw [← s.sourceWith_cut kind [] n (.code waiting)]
    dsimp only
    split
    · exact endCode_keeps _
    · rfl

theorem single_keeps (passed : List Char) (waiting : List Interruption) :
    Keeps (s.sourceWith passed) (s.single passed waiting) := by
  unfold single
  split
  · exact s.keeps_fail _ _
  rename_i c cs hcs
  split
  · exact s.sourceWith_cut ..
  split
  · have hpass := s.sourceWith_pass passed 2
    rw [hcs] at hpass
    exact hpass _
  · have hpass := s.sourceWith_pass passed 1
    rw [hcs] at hpass
    exact hpass _

theorem nowdoc_keeps (label : List Char) (lineStart : Bool) (passed : List Char)
    (waiting : List Interruption) :
    Keeps (s.sourceWith passed) (s.nowdoc label lineStart passed waiting) := by
  unfold nowdoc
  split
  · exact s.sourceWith_cut ..
  · exact s.keeps_fail _ _
  · rename_i c cs _ hcs
    have hpass := s.sourceWith_pass passed 1
    rw [hcs] at hpass
    exact hpass _

theorem interpolated_keeps (closing : Closing) (lineStart : Bool) (passed : List Char)
    (waiting : List Interruption) :
    Keeps (s.sourceWith passed) (s.interpolated closing lineStart passed waiting) := by
  unfold interpolated
  split
  · exact s.sourceWith_cut ..
  · exact s.keeps_fail _ _
  rename_i c cs _ hcs
  split
  · dsimp only
    generalize hs' : (if passed = [] then s else s.cut .stringLiteral passed 0 s.loop) = s'
    -- What is passed is a fragment of its own, unless it is empty.
    have hsource : s'.sourceWith [] = s.sourceWith passed := by
      rw [← hs']
      split
      · rename_i hempty
        rw [hempty]
      · exact s.sourceWith_cut ..
    rw [← hsource]
    split
    · exact s'.sourceWith_cut ..
    · exact s'.sourceWith_cut ..
  split
  · rw [← hcs]
    exact s.sourceWith_pass ..
  · have hpass := s.sourceWith_pass passed 1
    rw [hcs] at hpass
    exact hpass _

theorem turn_keeps : Keeps s.source s.turn := by
  unfold turn
  split
  · rw [s.source_of_loop _ ‹_›]
    exact s.sections_keeps
  · rw [s.source_of_loop _ ‹_›]
    exact s.code_keeps _
  · rw [s.source_of_loop _ ‹_›]
    exact s.single_keeps ..
  · rw [s.source_of_loop _ ‹_›]
    exact s.nowdoc_keeps ..
  · rw [s.source_of_loop _ ‹_›]
    exact s.interpolated_keeps ..

end State

/-- A loop that is left has lost no character and added none, and tokens that a run ends with
have the characters of the source. -/
theorem source_of_runs {s : State} {n : Nat} {e : Ending State Answer}
    (h : Runs State.turn s n e) :
    e.All (·.source = s.source) fun answer => ∀ ts, answer = .ok ts → texts ts = s.source := by
  refine h.all (fun t ht => ?_) rfl
  rw [← ht]
  exact t.turn_keeps

/-- The run over a whole source. -/
theorem texts_of_runs (cs : List Char) (n : Nat) (ts : List Token)
    (h : Runs State.turn { rest := cs } n (.finished (.ok ts))) : texts ts = cs :=
  source_of_runs h ts rfl

end Redeclaration.Lexer
