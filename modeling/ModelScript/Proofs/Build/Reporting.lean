import ModelScript.Proofs.Build.Run
import ModelScript.Proofs.Expression.Depth
import ModelScript.Proofs.Reading.Wording
import ModelScript.Proofs.Text.Splitting

/-!
# Reports that can be taken apart

The report on a build has a part for each file that failed, and between two parts a line of dashes.
That line begins and ends with a line break, and no message has a line break in it, so splitting the
report at the line of dashes gives the parts back, one for each file that failed and in the order of
the sources:

    split reportSeparator (reportOf results) = the parts of the failed results
                                                          (buildAll_report_splits)

A message shows a token, and a token that the lexer has made is written in one line.  A fault of a
text shows such a token even if it is found in a string, since what stands in a string is read by
the lexer too, and so is what stands in a string in there (`Fault.InString.inLine`).
-/

namespace ModelScript

/-! ## What a fault shows -/

theorem Token.InLine.oneLine {t : Token} (h : t.InLine) : t.OneLine := by
  rintro raw rfl
  exact h raw rfl

/-- A fault that lies among tokens of one line shows one of them, unless it is found in a string. -/
theorem Fault.Lies.inLine {f : Fault} {file : String} {u : Unread} (h : f.Lies file u)
    (hu : ∀ t ∈ u.tokens, t.InLine)
    (hstring : ∀ raw, .string raw ∈ u.tokens → f.InString raw → f.problem.InLine) :
    f.problem.InLine := by
  obtain ⟨-, v, ⟨before, hv, -⟩, -, hfits⟩ := h fun t ht => (hu t ht).oneLine
  have hmem {t : Token} (ht : v.tokens.head? = some t) : t ∈ u.tokens :=
    hv ▸ List.mem_append_right before (List.mem_of_mem_head? ht)
  rcases hfits with ⟨hshown, -⟩ | ⟨raw, hraw, hin⟩
  · exact fun t ht => hu t (hmem (hshown t ht))
  · exact hstring raw (hmem hraw) hin

/-- What is wrong with a text before it is tokens shows no token. -/
theorem Lexer.inLine_of_fault {file : String} {place : Place} {skip : Nat} {cs : List Char}
    {f : Fault} (h : scan file place skip cs = .error f) : f.problem.InLine := by
  obtain ⟨-, ⟨c, column, hproblem⟩, -⟩ := fault_of_scan h
  intro t ht
  rw [hproblem] at ht
  cases ht

/-- A fault in a string shows a token of one line, however deep strings stand in strings.  A string
in an interpolation is shorter than the string around it. -/
theorem Fault.InString.inLine {f : Fault} {raw : String} (h : f.InString raw) :
    f.problem.InLine := by
  induction hlength : raw.length using Nat.strong_induction_on generalizing raw with
  | _ length ih =>
    obtain ⟨depth, i, -, hf⟩ := h
    unfold Expr.interpolated at hf
    split at hf
    · rw [(Logged.faults_fault _ _ _ _).1 hf]
      exact fun t ht => nomatch ht
    · rcases (Logged.faults_bind _ _ _).1 hf with hf | ⟨n, ts, hts, hf⟩
      · exact Lexer.inLine_of_fault ((Logged.faults_tokens _ _ _ _).1 hf)
      · have hscan := ((Logged.yields_tokens _ _ _ _ _).1 hts).2
        rcases (Logged.faults_bind _ _ _).1 hf with hf | ⟨n, p, -, hf⟩
        · have hlies := (Expr.located_of_read f.file depth f.line ts).fault hf
          refine hlies.inLine (Lexer.inLine_of_scan hscan) fun raw' hmem hin => ih _ ?_ hin rfl
          have hweight := Token.weights_le_of_sublist (List.singleton_sublist.2 hmem)
          have htext := Lexer.weights_le_of_scan hscan
          rw [List.length_drop, List.length_take, String.length_toList] at htext
          simp only [Token.weights_cons, Token.weights_nil, Token.weight] at hweight
          omega
        · exact absurd hf (Logged.not_faults_pure _ _)

/-- A fault of a file names the file, and shows a token of one line if it shows any. -/
theorem readWithin_fault {depth : Nat} {file : String} {source : List Char} {f : Fault}
    (h : (readWithin depth file source).Faults f) : f.file = file ∧ f.problem.InLine := by
  unfold readWithin at h
  rcases (Logged.faults_bind _ _ _).1 h with h | ⟨n, ts, hts, h⟩
  · have hscan := (Logged.faults_tokens _ _ _ _).1 h
    obtain ⟨hfile, -, -⟩ := Lexer.fault_of_scan hscan
    exact ⟨hfile, Lexer.inLine_of_fault hscan⟩
  · have hinLine := Lexer.inLine_of_scan ((Logged.yields_tokens _ _ _ _ _).1 hts).2
    rcases (Logged.faults_bind _ _ _).1 h with h | ⟨n, p, -, h⟩
    · have hlies := (parseWithin_located depth file ⟨ts, 1⟩).fault h
      obtain ⟨hfile, -⟩ := hlies fun t ht => (hinLine t ht).oneLine
      exact ⟨hfile, hlies.inLine hinLine fun raw _ hin => hin.inLine⟩
    · exact absurd h (Logged.not_faults_pure _ _)

theorem compile_fault [DepthLimits] {separators : Separators} {file : String} {source : List Char} {f : Fault}
    (h : (compile separators file source).outcome = .error (.fault f)) :
    f.file = file ∧ f.problem.InLine := by
  unfold compile at h
  dsimp only at h
  cases hread : (readFile file source).outcome with
  | ok body =>
    rw [hread] at h
    cases h
  | error stop =>
    rw [hread] at h
    cases stop with
    | fault g =>
      cases h
      exact readWithin_fault hread
    | tooDeep =>
      cases h
      exact ⟨rfl, fun t ht => nomatch ht⟩
    | noList k => cases h

theorem exists_of_mem_forall₂ {α β : Type} {R : α → β → Prop} {as : List α} {bs : List β}
    (h : List.Forall₂ R as bs) {b : β} (hb : b ∈ bs) : ∃ a ∈ as, R a b := by
  induction h with
  | nil => cases hb
  | @cons a b' as bs hab _ ih =>
    rcases List.mem_cons.1 hb with rfl | hb
    · exact ⟨a, List.mem_cons_self, hab⟩
    · obtain ⟨a', ha', hab'⟩ := ih hb
      exact ⟨a', List.mem_cons_of_mem a ha', hab'⟩

/-! ## Files that failed -/

section Builds

variable [TemplateEngine]

/-- A text that is built without templates fails for the fault that compiling it has. -/
theorem FileResult.Collected.failure_eq_some_iff [DepthLimits] {separators : Separators} {files : FileTree}
    {file : String} {text : List Char} {r : FileResult}
    (h : r.Collected separators files (file, .text text)) (failure : Failure) :
    r.failure = some failure ↔ ∃ f, failure = .fault f ∧
      (compile separators file text).outcome = .error (.fault f) := by
  have halone := h.alone none
  obtain ⟨v, hv⟩ | ⟨g, hg⟩ := Lookup.compile_outcome separators file text
  · have hr : ⟨file, some v, none, none⟩ = r := by
      simpa [buildAll, buildFile, Source.read, hv, renderFile, writeResult, Logged.pure_def]
        using halone
    rw [← hr, hv]
    simp
  · have hr : ⟨file, none, none, some (.fault g)⟩ = r := by
      simpa [buildAll, buildFile, Source.read, hg, Stop.mishap, settle, writeResult,
        Logged.pure_def] using halone
    rw [← hr, hg]
    simp [eq_comm]

namespace FileResult

/-- What a file fails for, if it fails, is a fault that names the file and shows a token of one
line, if it shows any. -/
def FailsInLine (r : FileResult) : Prop :=
  ∀ failure, r.failure = some failure →
    ∃ f, failure = .fault f ∧ f.file = r.file ∧ f.problem.InLine

theorem Collected.failsInLine [DepthLimits] {separators : Separators} {files : FileTree} {file : String}
    {text : List Char} {r : FileResult} (h : r.Collected separators files (file, .text text)) :
    r.FailsInLine := by
  intro failure hfailure
  obtain ⟨f, rfl, hcompile⟩ := (h.failure_eq_some_iff failure).1 hfailure
  obtain ⟨hfile, hproblem⟩ := compile_fault hcompile
  exact ⟨f, rfl, hfile.trans h.named.symm, hproblem⟩

/-- A part of a report words the fault of a file, with the name of the file and the line of the
fault in front. -/
def Reported (r : FileResult) (part : String) : Prop :=
  ∃ f : Fault, r.failure = some (.fault f) ∧ part = "Error: " ++ f.message ∧
    ∃ wording, f.message = s!"{r.file}:{f.line}: " ++ wording

end FileResult

/-! ## Reports -/

def partsOf (results : List FileResult) : List String :=
  (results.filterMap FileResult.message?).map fun m => s!"Error: {m}"

theorem reportOf_eq (results : List FileResult) :
    reportOf results = reportSeparator.intercalate (partsOf results) := rfl

theorem forall₂_partsOf {results : List FileResult} (h : ∀ r ∈ results, r.FailsInLine) :
    List.Forall₂ (fun part (r : FileResult) => r.Reported part) (partsOf results)
      (results.filter (!·.succeeded)) := by
  unfold partsOf
  induction results with
  | nil => exact .nil
  | cons r rest ih =>
    obtain ⟨hr, hrest⟩ := List.forall_mem_cons.1 h
    cases hfailure : r.failure with
    | none =>
      have hmessage : r.message? = none := by rw [FileResult.message?, hfailure]
      rw [List.filterMap_cons_none hmessage, List.filter_cons_of_neg]
      · exact ih hrest
      · simp [FileResult.succeeded, hfailure]
    | some failure =>
      obtain ⟨f, rfl, hfile, -⟩ := hr failure hfailure
      have hmessage : r.message? = some f.message := by rw [FileResult.message?, hfailure]
      rw [List.filterMap_cons_some hmessage, List.map_cons, List.filter_cons_of_pos]
      · exact .cons ⟨f, hfailure, rfl, _, hfile ▸ f.message_eq⟩ (ih hrest)
      · simp [FileResult.succeeded, hfailure]

/-- A part takes one line if the name of its file does. -/
theorem not_mem_of_mem_partsOf {results : List FileResult} (h : ∀ r ∈ results, r.FailsInLine)
    (hnames : ∀ r ∈ results, '\n' ∉ r.file.toList) :
    ∀ part ∈ partsOf results, '\n' ∉ part.toList := by
  refine List.forall_mem_map.2 fun message hmessage => ?_
  obtain ⟨r, hr, hmessage⟩ := List.mem_filterMap.1 hmessage
  cases hfailure : r.failure with
  | none =>
    rw [FileResult.message?, hfailure] at hmessage
    cases hmessage
  | some failure =>
    obtain ⟨f, rfl, hfile, hproblem⟩ := h r hr failure hfailure
    rw [FileResult.message?, hfailure] at hmessage
    cases hmessage
    simpa [toString] using Fault.not_mem_message (hfile ▸ hnames r hr) hproblem

/-- Splitting a report at the line of dashes gives its parts. -/
theorem pieces_reportOf {results : List FileResult} (h : ∀ r ∈ results, r.FailsInLine)
    (hnames : ∀ r ∈ results, '\n' ∉ r.file.toList) (hfailed : anyFailed results = true) :
    Text.pieces reportSeparator (reportOf results) = partsOf results := by
  have hne : partsOf results ≠ [] := by
    obtain ⟨r, hr, hsome⟩ := (anyFailed_iff results).1 hfailed
    intro hnil
    have hlength := (forall₂_partsOf h).length_eq
    rw [hnil, List.length_nil, eq_comm, List.length_eq_zero_iff, List.filter_eq_nil_iff] at hlength
    exact hlength r hr (by simp [FileResult.succeeded, hsome])
  rw [reportOf_eq]
  exact Text.pieces_intercalate rfl hne (not_mem_of_mem_partsOf h hnames)

/-- The report on a build of texts that renders nothing can be taken apart.  Each text has a result,
in order, which fails for the fault that compiling the text has.  If no name of a file has a line
break in it and some file failed, splitting the report at the line of dashes gives one part for each
file that failed, in the order of the texts: its message, behind the word for an error. -/
theorem buildAll_report_splits [DepthLimits] (separators : Separators) (setting : Option BuildSetting)
    (files : FileTree) (sources : List (String × List Char))
    (hnames : ∀ source ∈ sources, '\n' ∉ source.1.toList) :
    let built := buildAll ⟨separators, none⟩ setting files
      (sources.map fun source => (source.1, .text source.2))
    built.abort = none ∧
      List.Forall₂ (fun source (r : FileResult) => r.file = source.1 ∧
        ∀ failure, r.failure = some failure ↔ ∃ f, failure = .fault f ∧
          (compile separators source.1 source.2).outcome = .error (.fault f))
        sources built.results ∧
      (anyFailed built.results = true →
        List.Forall₂ (fun part (r : FileResult) => r.Reported part)
          (Text.pieces reportSeparator (reportOf built.results))
          (built.results.filter (!·.succeeded))) := by
  intro built
  have hnameable : ∀ source ∈ sources.map fun source => (source.1, Source.text source.2),
      source.2.IsNameable := List.forall_mem_map.2 fun _ _ => trivial
  obtain ⟨habort, -, hcollected⟩ := buildAll_unrendered separators setting files
    (sources.map fun source => (source.1, .text source.2))
  rw [List.takeWhile_eq_self_iff.2 (by simpa using hnameable), List.forall₂_map_left_iff]
    at hcollected
  refine ⟨habort.2 hnameable, hcollected.imp fun source r h => ⟨h.named, h.failure_eq_some_iff⟩,
    fun hfailed => ?_⟩
  have hfails : ∀ r ∈ built.results, r.FailsInLine ∧ '\n' ∉ r.file.toList := by
    intro r hr
    obtain ⟨source, hsource, h⟩ := exists_of_mem_forall₂ hcollected hr
    exact ⟨h.failsInLine, h.named ▸ hnames source hsource⟩
  rw [pieces_reportOf (fun r hr => (hfails r hr).1) (fun r hr => (hfails r hr).2) hfailed]
  exact forall₂_partsOf fun r hr => (hfails r hr).1

end Builds

/-- A text with a declaration without a name, one without statements, and one with a character that
no token begins with. -/
def brokenTexts : List (String × List Char) :=
  [("a.zolang", "let = 1".toList), ("good.zolang", []), ("b.zolang", "let y be @".toList)]

set_option maxRecDepth 20000 in
theorem compile_nameless : (compile [] "a.zolang" "let = 1".toList).outcome
    = .error (.fault ⟨"a.zolang", 1, .noIdentifier (some (.mark .equals))⟩) := by
  have htokens : tokenize "a.zolang" 1 "let = 1".toList
      = .ok [.keyword .let', .mark .equals, .integer "1"] := rfl
  have hstatement (r : Inner) :
      (r.readStatement ⟨[.keyword .let', .mark .equals, .integer "1"], 1⟩).Faults
        ⟨r.file, 1, .noIdentifier (some (.mark .equals))⟩ := rfl
  have hne : (Unread.skipNewlines ⟨[.keyword .let', .mark .equals, .integer "1"], 1⟩).tokens ≠ [] :=
    List.cons_ne_nil _ _
  have hread : (readFile "a.zolang" "let = 1".toList).Faults
      ⟨"a.zolang", 1, .noIdentifier (some (.mark .equals))⟩ := by
    have hyields := (Logged.yields_tokens _ _ _ 0 _).2 ⟨rfl, htokens⟩
    refine (Logged.faults_bind _ _ _).2 (Or.inr ⟨0, _, hyields, ?_⟩)
    refine (Logged.faults_bind _ _ _).2 (Or.inl ((Logged.faults_bind _ _ _).2 (Or.inl ?_)))
    unfold Inner.statements
    rw [List.length_cons, Inner.lines_of_not_blank _ _ _ hne]
    exact (Logged.faults_bind _ _ _).2 (Or.inl (hstatement (.atDepth "a.zolang" 499)))
  unfold compile
  dsimp only
  rw [hread]
  rfl

set_option maxRecDepth 20000 in
theorem compile_unrecognized : (compile [] "b.zolang" "let y be @".toList).outcome
    = .error (.fault ⟨"b.zolang", 1, .unrecognized '@' 10⟩) := rfl

theorem buildAll_report_splits_brokenTexts :
    let built := buildAll ⟨[], none⟩ none ⟨[], []⟩
      (brokenTexts.map fun source => (source.1, .text source.2))
    anyFailed built.results = true ∧ Text.pieces reportSeparator (reportOf built.results) =
      ["Error: a.zolang:1: Missing identifier: Token(EQUALS)",
        "Error: b.zolang:1: Unrecognized character: '@' at column 10"] := by
  have hsplits := buildAll_report_splits [] none ⟨[], []⟩ brokenTexts (by decide)
  dsimp only at hsplits ⊢
  generalize buildAll ⟨[], none⟩ none ⟨[], []⟩
    (brokenTexts.map fun source => (source.1, .text source.2)) = built at hsplits ⊢
  obtain ⟨results, events, files, abort⟩ := built
  obtain ⟨-, hresults, hparts⟩ := hsplits
  dsimp only at hresults hparts ⊢
  simp only [brokenTexts, List.forall₂_cons_left_iff, List.forall₂_nil_left_iff] at hresults
  obtain ⟨a, _, ⟨-, ha⟩, ⟨good, _, ⟨-, hgood⟩, ⟨b, _, ⟨-, hb⟩, rfl, rfl⟩, rfl⟩, rfl⟩ := hresults
  have hafault := (ha _).2 ⟨_, rfl, compile_nameless⟩
  have hbfault := (hb _).2 ⟨_, rfl, compile_unrecognized⟩
  have hnone : good.failure = none := by
    refine Option.eq_none_iff_forall_ne_some.2 fun failure hfailure => ?_
    obtain ⟨f, -, hf⟩ := (hgood failure).1 hfailure
    rw [CommandLine.compile_nil] at hf
    cases hf
  have hfailed : anyFailed [a, good, b] = true := by
    simp [anyFailed, FileResult.succeeded, hafault]
  have hfilter : [a, good, b].filter (!·.succeeded) = [a, b] := by
    simp [FileResult.succeeded, hafault, hbfault, hnone]
  have hreported := hparts hfailed
  rw [hfilter] at hreported
  simp only [List.forall₂_cons_right_iff, List.forall₂_nil_right_iff] at hreported
  obtain ⟨_, _, ⟨f, hf, rfl, -⟩, ⟨_, _, ⟨g, hg, rfl, -⟩, rfl, rfl⟩, hpieces⟩ := hreported
  obtain rfl := Failure.fault.inj (Option.some.inj (hafault.symm.trans hf))
  obtain rfl := Failure.fault.inj (Option.some.inj (hbfault.symm.trans hg))
  rw [hpieces]
  exact ⟨hfailed, rfl⟩

end ModelScript
