import Redeclaration.CommandLine
import Redeclaration.Proofs.Report

/-!
The command line. Some of its arguments only say how to report, and the others ask
for the same scan without them. Main statement: how the program ends depends on what
the scanned files declare, and not on the form of the report, which lists the same
names in either form.
-/

namespace Redeclaration

namespace Request

/-- Whether an argument only says how to report: the flag for JSON, or one that asks
for more of the log. -/
def isOutputFlag (arg : String) : Bool :=
  arg == "--json" || arg == "--verbose" || isOption arg && (arg.toList.drop 1).all (· == 'v')

/-- The arguments without those that only say how to report. Behind two dashes, all
arguments are paths. -/
def withoutOutput : List String → List String
  | [] => []
  | arg :: args =>
    if arg == "--" then arg :: args
    else if isOutputFlag arg then withoutOutput args
    else arg :: withoutOutput args

end Request

namespace Options

/-- The options without those that only say how to report. -/
def withoutOutput (o : Options) : Options :=
  { o with json := false, verbosity := 0 }

theorem configure?_withoutOutput (o : Options) (path : String) :
    o.withoutOutput.configure? path = (o.configure? path).map withoutOutput := by
  unfold configure?
  show (if (path == "" || o.configuration.isSome) = true then _ else _) = _
  split <;> rfl

theorem addPath?_withoutOutput (o : Options) (path : String) :
    o.withoutOutput.addPath? path = (o.addPath? path).map withoutOutput := by
  unfold addPath?
  split <;> rfl

theorem askJson?_withoutOutput (o o' : Options) (h : o.askJson? = some o') :
    o'.withoutOutput = o.withoutOutput := by
  unfold askJson? at h
  split at h
  · cases h
  · cases h
    rfl

end Options

namespace Request

/-! The arguments by what they are. -/

theorem isOption_of_isOutputFlag (arg : String) (h : isOutputFlag arg = true) :
    isOption arg = true := by
  simp only [isOutputFlag, Bool.or_eq_true, Bool.and_eq_true, beq_iff_eq] at h
  rcases h with (rfl | rfl) | ⟨hoption, -⟩
  · decide
  · decide
  · exact hoption

theorem withoutOutput_flag (arg : String) (args : List String) (h : isOutputFlag arg = true) :
    withoutOutput (arg :: args) = withoutOutput args := by
  have hdashes : arg ≠ "--" := by
    rintro rfl
    exact absurd h (by decide)
  simp [withoutOutput, hdashes, h]

theorem withoutOutput_other (arg : String) (args : List String) (hdashes : arg ≠ "--")
    (h : isOutputFlag arg = false) : withoutOutput (arg :: args) = arg :: withoutOutput args := by
  simp [withoutOutput, hdashes, h]

/-- Everything that starts with two dashes is an option. -/
theorem isOption_of_dashes (arg : String) (h : ['-', '-'].isPrefixOf arg.toList = true) :
    isOption arg = true := by
  obtain ⟨rest, hrest⟩ := List.isPrefixOf_iff_prefix.1 h
  have hdash : arg ≠ "-" := by
    rintro rfl
    simp at hrest
  simp [isOption, ← hrest, hdash]

theorem attachedValue?_eq_some (arg value : String) (h : attachedValue? arg = some value) :
    ∃ rest, arg.toList = configurationFlag.toList ++ '=' :: rest := by
  unfold attachedValue? at h
  dsimp only at h
  split at h
  · rename_i hprefix
    obtain ⟨rest, hrest⟩ := List.isPrefixOf_iff_prefix.1 hprefix
    exact ⟨rest, by simp [← hrest]⟩
  · cases h

/-- The flag with a value in it is no other argument. -/
theorem beq_of_attachedValue? (arg value other : String) (h : attachedValue? arg = some value)
    (hother : ∀ rest, other.toList ≠ configurationFlag.toList ++ '=' :: rest) :
    (arg == other) = false := by
  obtain ⟨rest, hrest⟩ := attachedValue?_eq_some arg value h
  rw [beq_eq_false_iff_ne]
  rintro rfl
  exact hother rest hrest

theorem attachedValue?_of_not_isOption (arg : String) (h : isOption arg = false) :
    attachedValue? arg = none := by
  by_contra hsome
  obtain ⟨value, hvalue⟩ := Option.ne_none_iff_exists'.1 hsome
  obtain ⟨rest, hrest⟩ := attachedValue?_eq_some arg value hvalue
  have hdashes : ['-', '-'].isPrefixOf arg.toList = true := by
    rw [hrest]
    rfl
  rw [isOption_of_dashes arg hdashes] at h
  cases h

theorem ofArguments_path (o : Options) (arg : String) (args : List String)
    (h : isOption arg = false) :
    ofArguments o (arg :: args) =
      match o.addPath? arg with
      | none => misuse
      | some o => ofArguments o args := by
  have hflag (flag : String) (hoption : isOption flag = true) : (arg == flag) = false := by
    rw [beq_eq_false_iff_ne]
    rintro rfl
    rw [hoption] at h
    cases h
  have hdashes : ['-', '-'].isPrefixOf arg.toList = false := by
    by_contra hprefix
    rw [isOption_of_dashes arg (by simpa using hprefix)] at h
    cases h
  rw [ofArguments.eq_def]
  simp only [hflag "--" (by decide), hflag configurationFlag (by decide),
    hflag "--json" (by decide), hflag "--verbose" (by decide), hflag "--version" (by decide),
    hflag "--help" (by decide), attachedValue?_of_not_isOption arg h, hdashes, h]
  rfl

theorem ofArguments_configuration (o : Options) (value : String) (args : List String)
    (h : isOption value = false) :
    ofArguments o (configurationFlag :: value :: args) =
      match o.configure? value with
      | none => misuse
      | some o => ofArguments o args := by
  rw [ofArguments.eq_def]
  simp only [h, show (configurationFlag == "--") = false by decide, beq_self_eq_true]
  rfl

theorem ofArguments_attached (o : Options) (arg value : String) (args : List String)
    (h : attachedValue? arg = some value) :
    ofArguments o (arg :: args) =
      match o.configure? value with
      | none => misuse
      | some o => ofArguments o args := by
  have hdashes := beq_of_attachedValue? arg value "--" h (by simp [configurationFlag])
  have hflag := beq_of_attachedValue? arg value configurationFlag h (by simp)
  rw [ofArguments.eq_def]
  simp only [h, hdashes, hflag]
  rfl

/-- Letters that go on with the arguments only ask for more of the log. -/
theorem ofLetters_eq_inr (o o' : Options) (cs : List Char) (h : ofLetters o cs = .inr o') :
    cs.all (· == 'v') = true ∧ o'.withoutOutput = o.withoutOutput := by
  fun_induction ofLetters o cs with
  | case1 o =>
    cases h
    exact ⟨rfl, rfl⟩
  | case2 o cs ih =>
    obtain ⟨hall, hsame⟩ := ih h
    exact ⟨by simpa using hall, hsame⟩
  | case3 | case4 | case5 => cases h

theorem ofLetters_ne_scan (o o' : Options) (cs : List Char) :
    ofLetters o cs ≠ .inl (.scan o') := by
  fun_induction ofLetters o cs with
  | case2 o cs ih => exact ih
  | case1 | case3 | case4 | case5 => simp

theorem ofPaths_withoutOutput (o o' : Options) (args : List String)
    (h : ofPaths o args = .scan o') : ofPaths o.withoutOutput args = .scan o'.withoutOutput := by
  fun_induction ofPaths o args with
  | case1 o =>
    cases h
    rfl
  | case2 => cases h
  | case3 o arg args o₁ hadd ih =>
    rw [ofPaths, Options.addPath?_withoutOutput, hadd]
    exact ih h

theorem withoutOutput_path (arg : String) (args : List String) (h : isOption arg = false) :
    withoutOutput (arg :: args) = arg :: withoutOutput args := by
  have hdashes : arg ≠ "--" := by
    rintro rfl
    exact absurd h (by decide)
  have hflag : isOutputFlag arg = false := by
    by_contra hflag
    rw [isOption_of_isOutputFlag arg (by simpa using hflag)] at h
    cases h
  exact withoutOutput_other arg args hdashes hflag

theorem isOutputFlag_of_attachedValue? (arg value : String)
    (h : attachedValue? arg = some value) : isOutputFlag arg = false := by
  obtain ⟨rest, hrest⟩ := attachedValue?_eq_some arg value h
  have hletters : (arg.toList.drop 1).all (· == 'v') = false := by
    rw [hrest]
    rfl
  have hjson := beq_of_attachedValue? arg value "--json" h (by simp [configurationFlag])
  have hverbose := beq_of_attachedValue? arg value "--verbose" h (by simp [configurationFlag])
  rw [isOutputFlag, hletters, hjson, hverbose, Bool.and_false]
  rfl

/-- What only says how to report can be left out: the remaining arguments ask for the
same scan. -/
theorem ofArguments_withoutOutput (o o' : Options) (args : List String)
    (h : ofArguments o args = .scan o') :
    ofArguments o.withoutOutput (withoutOutput args) = .scan o'.withoutOutput := by
  -- Each argument stays and is read in the same way, or is dropped and changes nothing
  -- but the form of the report.
  fun_induction ofArguments o args with
  | case1 o =>
    cases h
    rfl
  | case2 o arg args hdashes =>
    cases beq_iff_eq.1 hdashes
    rw [withoutOutput, if_pos hdashes, ofArguments.eq_def]
    exact ofPaths_withoutOutput o o' args h
  | case6 o arg _ hflag value args hvalue o₁ hconfigure ih =>
    cases beq_iff_eq.1 hflag
    rw [Bool.not_eq_true] at hvalue
    -- The value of the flag is no option, so it stays behind the flag.
    rw [withoutOutput_other configurationFlag _ (by decide) (by decide),
      withoutOutput_path value _ hvalue, ofArguments_configuration _ _ _ hvalue,
      Options.configure?_withoutOutput, hconfigure]
    exact ih h
  | case8 o arg args hdashes _ value hattached o₁ hconfigure ih =>
    have hother := isOutputFlag_of_attachedValue? arg value hattached
    rw [withoutOutput_other arg _ (by simpa using hdashes) hother,
      ofArguments_attached _ _ _ _ hattached, Options.configure?_withoutOutput, hconfigure]
    exact ih h
  | case10 o arg args _ _ hjson o₁ hask _ ih =>
    cases beq_iff_eq.1 hjson
    rw [withoutOutput_flag "--json" args (by decide), ← Options.askJson?_withoutOutput o o₁ hask]
    exact ih h
  | case11 o arg args _ _ _ hverbose _ ih =>
    cases beq_iff_eq.1 hverbose
    rw [withoutOutput_flag "--verbose" args (by decide)]
    exact ih h
  | case15 o arg _ _ _ _ _ _ _ _ _ request hletters =>
    rw [h] at hletters
    exact absurd hletters (ofLetters_ne_scan o o' _)
  | case16 o arg args _ _ _ _ _ _ _ hoption o₁ hletters _ ih =>
    obtain ⟨hall, hsame⟩ := ofLetters_eq_inr o o₁ _ hletters
    have hflag : isOutputFlag arg = true := by
      rw [isOutputFlag, hoption, hall, Bool.and_true, Bool.or_true]
    rw [withoutOutput_flag arg args hflag, ← hsame]
    exact ih h
  | case18 o arg args _ _ _ _ _ _ _ hpath o₁ hadd _ ih =>
    rw [Bool.not_eq_true] at hpath
    rw [withoutOutput_path arg args hpath, ofArguments_path _ _ _ hpath,
      Options.addPath?_withoutOutput, hadd]
    exact ih h
  | case3 | case4 | case5 | case7 | case9 | case12 | case13 | case14 | case17 => cases h

end Request

/-! The end of the program. -/

/-- Some name of a group is declared twice or more in the files that are analysed. -/
def DeclaresTwice (d : Disk) (s : Settings) : Prop :=
  ∃ g n, 2 ≤ (Sighting.locationsOf g n ((candidates d s).flatMap (·.sightings d s))).length

theorem hasCollisions_iff (d : Disk) (s : Settings) (f : Findings)
    (h : (detect d s).outcome = .ok f) : f.hasCollisions = true ↔ DeclaresTwice d s := by
  obtain ⟨-, rfl⟩ := (detect_eq_ok_iff d s f).1 h
  have hsome : (Findings.ofCandidates d s (candidates d s)).hasCollisions = true ↔
      ∃ c, c ∈ collisions ((candidates d s).flatMap (·.sightings d s)) := by
    rw [Findings.hasCollisions, Bool.not_eq_true', List.isEmpty_eq_false_iff_exists_mem]
    rfl
  rw [hsome]
  constructor
  · rintro ⟨⟨g, n, ls⟩, hc⟩
    exact ⟨g, n, (exists_mem_collisions_iff _ g n).1 ⟨ls, hc⟩⟩
  · rintro ⟨g, n, htwice⟩
    obtain ⟨ls, hc⟩ := (exists_mem_collisions_iff _ g n).2 htwice
    exact ⟨_, hc⟩

namespace Options

/-- What ends a scan without a report. -/
def Fails (o : Options) (d : Disk) : Prop :=
  (∃ e, o.settings d = .error e) ∨
    ∃ s, o.settings d = .ok s ∧ (s.scanPaths = [] ∨ ∃ e, (detect d s).outcome = .error e)

/-- A scan fails, or reports what it finds in files that it has. -/
theorem scan_cases (o : Options) (colour : Bool) (d : Disk) :
    (o.Fails d ∧ (o.scan colour d).exit = .failure) ∨
      ∃ s f, o.settings d = .ok s ∧ s.scanPaths ≠ [] ∧ (detect d s).outcome = .ok f ∧
        (o.scan colour d).exit = if f.hasCollisions then .collisions else .clean := by
  unfold scan Fails
  cases hsettings : o.settings d with
  | error e => exact .inl ⟨.inl ⟨e, rfl⟩, rfl⟩
  | ok s =>
    dsimp only
    cases hpaths : s.scanPaths with
    | nil => exact .inl ⟨.inr ⟨s, rfl, .inl hpaths⟩, rfl⟩
    | cons path paths =>
      unfold answer
      cases hdetect : (detect d s).outcome with
      | error e => exact .inl ⟨.inr ⟨s, rfl, .inr ⟨e, hdetect⟩⟩, rfl⟩
      | ok f => exact .inr ⟨s, f, rfl, by simp [hpaths], hdetect, rfl⟩

theorem not_fails (o : Options) (d : Disk) (s : Settings) (f : Findings)
    (hsettings : o.settings d = .ok s) (hpaths : s.scanPaths ≠ [])
    (hdetect : (detect d s).outcome = .ok f) : ¬ o.Fails d := by
  rintro (⟨e, he⟩ | ⟨s', hs', hbad⟩)
  · rw [hsettings] at he
    cases he
  · rw [hsettings] at hs'
    cases hs'
    rcases hbad with hnone | ⟨e, he⟩
    · exact hpaths hnone
    · rw [hdetect] at he
      cases he

theorem output_of_detect (o : Options) (colour : Bool) (d : Disk) (s : Settings) (f : Findings)
    (hsettings : o.settings d = .ok s) (hpaths : s.scanPaths ≠ [])
    (hdetect : (detect d s).outcome = .ok f) :
    (o.scan colour d).output = o.report colour s f := by
  simp [scan, hsettings, hpaths, answer, hdetect]

theorem settings_withoutOutput (o : Options) (d : Disk) :
    o.withoutOutput.settings d = o.settings d :=
  rfl

/-- How a scan ends depends on its settings alone. -/
theorem scan_exit_eq (o o' : Options) (colour colour' : Bool) (d : Disk)
    (h : o'.settings d = o.settings d) : (o'.scan colour' d).exit = (o.scan colour d).exit := by
  unfold scan
  rw [h]
  cases o.settings d with
  | error e => rfl
  | ok s =>
    dsimp only
    split
    · rfl
    · unfold answer
      cases (detect d s).outcome with
      | error e => rfl
      | ok f => rfl

theorem code_eq_failure_iff (o : Options) (colour : Bool) (d : Disk) :
    (o.scan colour d).exit.code = 255 ↔ o.Fails d := by
  rcases o.scan_cases colour d with ⟨hfails, hexit⟩ | ⟨s, f, hsettings, hpaths, hdetect, hexit⟩
  · simp [hexit, Exit.code, hfails]
  · have hends := o.not_fails d s f hsettings hpaths hdetect
    rw [hexit]
    cases f.hasCollisions with
    | false => simp [Exit.code, hends]
    | true => simp [Exit.code, hends]

/-- A scan that does not fail says whether a name is declared twice. -/
theorem code_of_not_fails (o : Options) (colour : Bool) (d : Disk)
    (h : (o.scan colour d).exit.code ≠ 255) :
    ∃ s, o.settings d = .ok s ∧
      ((o.scan colour d).exit.code = 1 ↔ DeclaresTwice d s) ∧
      ((o.scan colour d).exit.code = 0 ↔ ¬ DeclaresTwice d s) := by
  rcases o.scan_cases colour d with ⟨-, hexit⟩ | ⟨s, f, hsettings, -, hdetect, hexit⟩
  · rw [hexit] at h
    exact absurd rfl h
  · refine ⟨s, hsettings, ?_⟩
    rw [hexit, ← hasCollisions_iff d s f hdetect]
    cases f.hasCollisions with
    | false => simp [Exit.code]
    | true => simp [Exit.code]

/-- Scans with the same settings list the same collisions in both forms of the report. -/
theorem reports_agree (o o' : Options) (colour colour' : Bool) (d : Disk)
    (hsame : o'.settings d = o.settings d) (h : (o.scan colour d).exit.code ≠ 255)
    (htext : o.json = false) (hjson : o'.json = true) :
    ∃ s f bs document body, o.settings d = .ok s ∧ (detect d s).outcome = .ok f ∧
      (o.scan colour d).output = Report.blocksText colour s.scanPaths f bs ∧
      (o'.scan colour' d).output = body ++ "\n" ∧ Json.Written document body.toList ∧
      Report.collisions? document = some f.collisions ∧
      List.Forall₂ Report.Block.Shows bs f.collisions := by
  rcases o.scan_cases colour d with ⟨-, hexit⟩ | ⟨s, f, hsettings, hpaths, hdetect, -⟩
  · rw [hexit] at h
    exact absurd rfl h
  obtain ⟨-, hfound⟩ := (detect_eq_ok_iff d s f).1 hdetect
  have hincreasing : f.collisions.Pairwise fun a b =>
      nameplate a.group a.name < nameplate b.group b.name := by
    rw [hfound]
    exact collisions_increasing _
  obtain ⟨bs, hbs, hshows⟩ := Report.text_blocks colour s.scanPaths f
  obtain ⟨document, body, hbody, hwritten, hread⟩ :=
    Report.json_written s.scanPaths f hincreasing
  refine ⟨s, f, bs, document, body, hsettings, hdetect, ?_, ?_, hwritten, hread, hshows⟩
  · rw [o.output_of_detect colour d s f hsettings hpaths hdetect, report, htext]
    exact hbs
  · rw [o'.output_of_detect colour' d s f (hsame.trans hsettings) hpaths hdetect, report, hjson]
    exact hbody

end Options

theorem respond_scan (colour : Bool) (d : Disk) (args : List String) (o : Options)
    (h : Request.ofArguments {} args = .scan o) : respond colour d args = o.scan colour d := by
  rw [respond, h]

/-- Arguments that differ only in how to report ask for scans with the same settings. -/
theorem settings_eq_of_withoutOutput (d : Disk) (args args' : List String) (o o' : Options)
    (h : Request.ofArguments {} args = .scan o) (h' : Request.ofArguments {} args' = .scan o')
    (hsame : Request.withoutOutput args' = Request.withoutOutput args) :
    o'.settings d = o.settings d := by
  have hplain := Request.ofArguments_withoutOutput {} o args h
  have hplain' := Request.ofArguments_withoutOutput {} o' args' h'
  rw [hsame, hplain] at hplain'
  rw [← Options.settings_withoutOutput o', ← Options.settings_withoutOutput o,
    ← Request.scan.inj hplain']

/-- A scan ends with 255 exactly if it fails, and otherwise with 1 or 0, whether a name
is declared twice or not. Without the arguments that only say how to report, the others
still ask for a scan. With any such arguments the scan ends in the same way, and the
report in lines has a block for each collision that the JSON document lists, in the same
order. -/
theorem respond_verdict (colour : Bool) (d : Disk) (args : List String) (o : Options)
    (h : Request.ofArguments {} args = .scan o) :
    ((respond colour d args).exit.code = 255 ↔ o.Fails d) ∧
    ((respond colour d args).exit.code ≠ 255 → ∃ s, o.settings d = .ok s ∧
      ((respond colour d args).exit.code = 1 ↔ DeclaresTwice d s) ∧
      ((respond colour d args).exit.code = 0 ↔ ¬ DeclaresTwice d s)) ∧
    Request.ofArguments {} (Request.withoutOutput args) = .scan o.withoutOutput ∧
    ∀ colour' args' o', Request.ofArguments {} args' = .scan o' →
      Request.withoutOutput args' = Request.withoutOutput args →
      (respond colour' d args').exit.code = (respond colour d args).exit.code ∧
      ((respond colour d args).exit.code ≠ 255 → o.json = false → o'.json = true →
        ∃ s f bs document body, o.settings d = .ok s ∧ (detect d s).outcome = .ok f ∧
          (respond colour d args).output = Report.blocksText colour s.scanPaths f bs ∧
          (respond colour' d args').output = body ++ "\n" ∧
          Json.Written document body.toList ∧
          Report.collisions? document = some f.collisions ∧
          List.Forall₂ Report.Block.Shows bs f.collisions) := by
  rw [respond_scan colour d args o h]
  refine ⟨o.code_eq_failure_iff colour d, o.code_of_not_fails colour d,
    Request.ofArguments_withoutOutput {} o args h, ?_⟩
  intro colour' args' o' h' hargs
  have hsame := settings_eq_of_withoutOutput d args args' o o' h h' hargs
  rw [respond_scan colour' d args' o' h', o.scan_exit_eq o' colour colour' d hsame]
  exact ⟨rfl, o.reports_agree o' colour colour' d hsame⟩

/-- The same class is declared in two files, beside an empty settings file. -/
def twoFiles : Disk where
  tree :=
    { entries := [("a.php", classFile), ("b.php", classFile), ("c", .file [123, 125])]
      ordered := by decide }
  directory := []

theorem respond_verdict_twoFiles :
    (respond true twoFiles ["--configuration=c", "a.php", "b.php"]).exit.code = 1 ∧
    (respond false twoFiles ["-vv", "--configuration=c", "a.php", "--json", "b.php"]).exit.code =
      1 ∧
    ∃ paths f bs document body,
      f.collisions = [⟨.type, "A", [⟨"a.php", 1⟩, ⟨"b.php", 1⟩]⟩] ∧
      (respond true twoFiles ["--configuration=c", "a.php", "b.php"]).output =
        Report.blocksText true paths f bs ∧
      (respond false twoFiles ["-vv", "--configuration=c", "a.php", "--json", "b.php"]).output =
        body ++ "\n" ∧
      Json.Written document body.toList ∧ Report.collisions? document = some f.collisions ∧
      List.Forall₂ Report.Block.Shows bs f.collisions := by
  have htext : Request.ofArguments {} ["--configuration=c", "a.php", "b.php"] =
      .scan { configuration := some "c", paths := ["a.php", "b.php"] } := by decide
  have hjson : Request.ofArguments {} ["-vv", "--configuration=c", "a.php", "--json", "b.php"] =
      .scan { configuration := some "c", json := true, verbosity := 2,
              paths := ["a.php", "b.php"] } := by decide
  have hsettings : Options.settings { configuration := some "c", paths := ["a.php", "b.php"] }
      twoFiles = .ok ⟨["/a.php", "/b.php"], [], [".php"], "/", false⟩ := by cbv
  have hdetect : (detect twoFiles ⟨["/a.php", "/b.php"], [], [".php"], "/", false⟩).outcome =
      .ok ⟨2, 0, [⟨.type, "A", [⟨"a.php", 1⟩, ⟨"b.php", 1⟩]⟩]⟩ := by cbv
  obtain ⟨hfails, hverdict, -, hforms⟩ := respond_verdict true twoFiles _ _ htext
  have hends : (respond true twoFiles ["--configuration=c", "a.php", "b.php"]).exit.code ≠ 255 :=
    fun hcode => Options.not_fails _ _ _ _ hsettings (by simp) hdetect (hfails.1 hcode)
  obtain ⟨s, hs, hone, -⟩ := hverdict hends
  rw [hsettings] at hs
  cases hs
  have hcode := hone.2 ((hasCollisions_iff _ _ _ hdetect).1 rfl)
  obtain ⟨hsame, hreports⟩ := hforms false _ _ hjson (by decide)
  obtain ⟨s, f, bs, document, body, hs, hf, hlisted⟩ := hreports hends rfl rfl
  rw [hsettings] at hs
  cases hs
  rw [hdetect] at hf
  cases hf
  exact ⟨hcode, hsame.trans hcode, _, _, bs, document, body, rfl, hlisted⟩

end Redeclaration
