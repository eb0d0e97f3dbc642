import Bindery.Proofs.CheckOrder
import Bindery.Proofs.Outputs

/-!
Checking and compiling.

A command that only checks reports the diagnostics of all files together, sorted. One that compiles
reports those of each file as it comes to it. Still, both report alike (`modes_report_alike`). But
which diagnostics are shown depends on their order, and so does whether one of them breaks off
(`order_decides_exit_code`).
-/

namespace Bindery.Cli

variable {locate : Locator}

/-! ### Reports in parts -/

namespace Reporter

/-- What is shown of a second list depends on how many of the first were. -/
theorem shown_append (r : Reporter) (first second : List Diagnostic) :
    r.shown (first ++ second) = r.shown first ++ (r.after first).shown second := by
  obtain ⟨limit, printed, total⟩ := r
  cases limit with
  | none => rfl
  | some limit =>
    have room : limit - (printed + min (limit - printed) first.length) =
        limit - printed - first.length := by omega
    simp [shown, after, List.take_append, room]

theorem after_append (r : Reporter) (first second : List Diagnostic) :
    r.after (first ++ second) = (r.after first).after second := by
  have shown := congrArg List.length (r.shown_append first second)
  rw [List.length_append] at shown
  rw [after, shown, List.length_append, ← Nat.add_assoc, ← Nat.add_assoc]
  rfl

/-- The count does not depend on the order. -/
theorem after_perm (r : Reporter) {first second : List Diagnostic} (perm : first.Perm second) :
    r.after first = r.after second := by
  have shown : (r.shown first).length = (r.shown second).length := by
    unfold Reporter.shown
    split
    · rw [List.length_take, List.length_take, perm.length_eq]
    · exact perm.length_eq
  rw [after, after, shown, perm.length_eq]

/-- A new reporter shows as many diagnostics as there are, up to its limit. -/
theorem after_new (limit : Option Nat) (found : List Diagnostic) :
    ({ limit } : Reporter).after found =
      { limit, printed := limit.elim found.length (min found.length), total := found.length } := by
  cases limit with
  | none => simp [after, shown]
  | some => simp [after, shown, Nat.min_comm]

end Reporter

/-- What is printed about diagnostics in two parts, unless the first part breaks off. -/
theorem transcript_append (locate : Locator) (files : List SourceFile)
    (first second : List Diagnostic) :
    transcript locate files (first ++ second) = transcript locate files first ++
      if first.any (breaksOff locate files) then "" else transcript locate files second := by
  induction first with
  | nil => simp [transcript]
  | cons d _ ih =>
    rw [List.cons_append, transcript, transcript, List.any_cons]
    cases breaksOff locate files d with
    | true => simp
    | false => simp [ih, String.append_assoc]

/-- `Reports locate files r found w result w'`: between the two worlds the diagnostics were handed
to the reporter, with a result. -/
structure Reports (locate : Locator) (files : List SourceFile) (r : Reporter)
    (found : List Diagnostic) (w : World) (result : Except Failure Reporter) (w' : World) :
    Prop where
  ends : result = if (r.shown found).any (breaksOff locate files) then .error .brokenReport
    else .ok (r.after found)
  prints : w'.err = w.err ++ transcript locate files (r.shown found)

namespace Reports

variable {files : List SourceFile} {r r' : Reporter} {first second : List Diagnostic}
    {w w₁ w' : World} {result : Except Failure Reporter} {failure : Failure}

theorem nil (files : List SourceFile) (r : Reporter) (w : World) :
    Reports locate files r [] w (.ok r) w := by
  constructor
  · rw [r.shown_nil, r.after_nil]
    rfl
  · rw [r.shown_nil, transcript, String.append_empty]

/-- A report that does not break off shows what there is room for. -/
theorem of_ok (reports : Reports locate files r first w (.ok r') w') :
    (r.shown first).any (breaksOff locate files) = false ∧ r' = r.after first := by
  have ends := reports.ends
  by_cases broken : (r.shown first).any (breaksOff locate files) = true
  · rw [if_pos broken] at ends
    cases ends
  · rw [if_neg broken] at ends
    exact ⟨eq_false_of_ne_true broken, Except.ok.inj ends⟩

/-- A report fails only by breaking off. -/
theorem of_error (reports : Reports locate files r first w (.error failure) w') :
    (r.shown first).any (breaksOff locate files) = true ∧ failure = .brokenReport := by
  have ends := reports.ends
  by_cases broken : (r.shown first).any (breaksOff locate files) = true
  · rw [if_pos broken] at ends
    exact ⟨broken, Except.error.inj ends⟩
  · rw [if_neg broken] at ends
    cases ends

/-- Behind a report that went well the next one goes on with the same reporter. -/
theorem append (reports : Reports locate files r first w (.ok r') w₁)
    (more : Reports locate files r' second w₁ result w') :
    Reports locate files r (first ++ second) w result w' := by
  obtain ⟨whole, rfl⟩ := reports.of_ok
  constructor
  · rw [more.ends, r.shown_append, List.any_append, whole, Bool.false_or, r.after_append]
  · rw [more.prints, reports.prints, r.shown_append, transcript_append, whole,
      if_neg Bool.false_ne_true, String.append_assoc]

/-- Nothing is printed behind a report that breaks off. -/
theorem stopped (reports : Reports locate files r first w (.error failure) w')
    (second : List Diagnostic) :
    Reports locate files r (first ++ second) w (.error failure) w' := by
  obtain ⟨broken, rfl⟩ := reports.of_error
  constructor
  · rw [r.shown_append, List.any_append, broken, Bool.true_or, if_pos rfl]
  · rw [reports.prints, r.shown_append, transcript_append, broken, if_pos rfl,
      String.append_empty]

end Reports

theorem reports_reportAll (files : List SourceFile) (r : Reporter) (found : List Diagnostic)
    (w : World) :
    Reports locate files r found w (exec (reportAll (Host.store locate) files r found) w).1
      (exec (reportAll (Host.store locate) files r found) w).2 := by
  rw [exec_reportAll]
  exact ⟨rfl, rfl⟩

/-! ### Compiling file by file -/

/-- A file is reported with what a check finds in it. -/
theorem found_eq_check (file : SourceFile) : found file = file.check := by
  unfold found SourceFile.compile SourceFile.check
  obtain ⟨program, diagnostics⟩ := file.bind
  cases diagnostics with
  | cons => rfl
  | nil =>
    cases emitted : program.emit with
    | ok =>
      simp only [emitted]
      rfl
    | error err =>
      simp only [emitted]
      cases err <;> rfl

/-- Whether the tree of a file is complete and its code fits, if it comes to that. -/
def emittable (file : SourceFile) : Bool :=
  match file.compile with
  | .ok _ | .error (.diagnostics _) => true
  | .error (.incomplete _) | .error (.emit _) => false

section Emitting

variable {options : Options} {files : List SourceFile} {r : Reporter} {w w' : World}
    {result : Except Failure Reporter}

variable {file : SourceFile}

/-- A file that can be written stops the command only by its report. -/
theorem stops?_of_emittable (sound : emittable file = true) :
    stops? locate files r file =
      if (r.shown file.check).any (breaksOff locate files) then some .brokenReport else none := by
  rw [← found_eq_check]
  unfold emittable at sound
  unfold stops? found
  cases compiled : file.compile with
  | ok => simp [r.shown_nil]
  | error err =>
    rw [compiled] at sound
    cases err with
    | diagnostics => rfl
    | incomplete => cases sound
    | emit => cases sound

/-- Compiling a file reports its diagnostics. -/
theorem reports_emitOne {input : String} (sound : emittable file = true)
    (ran : exec (emitOne (Host.store locate) options files r file input) w = (result, w'))
    (writable : ∀ path, result ≠ .error (.outputUnwritable path)) :
    Reports locate files r file.check w result w' := by
  obtain ⟨ends, prints⟩ := exec_emitOne ran writable
  rw [found_eq_check] at prints ends
  refine ⟨?_, prints⟩
  rw [stops?_of_emittable sound] at ends
  by_cases broken : (r.shown file.check).any (breaksOff locate files) = true
  · rw [if_pos broken] at ends ⊢
    rcases ends with ⟨failure, stops, rfl, _⟩ | ⟨passes, _⟩
    · rw [Option.some.inj stops]
    · cases passes
  · rw [if_neg broken] at ends ⊢
    rcases ends with ⟨failure, stops, _⟩ | ⟨_, rfl, _⟩
    · cases stops
    · rfl

/-- Compiling the inputs in order reports what is found in each of them, in that order. -/
theorem reports_emitAll {inputs : List (SourceFile × String)}
    (sound : ∀ p ∈ inputs, emittable p.1 = true)
    (ran : exec (emitAll (Host.store locate) options files r inputs) w = (result, w'))
    (writable : ∀ path, result ≠ .error (.outputUnwritable path)) :
    Reports locate files r (inputs.flatMap (·.1.check)) w result w' := by
  induction inputs generalizing r w with
  | nil =>
    cases ran
    exact .nil files r _
  | cons pair _ ih =>
    obtain ⟨file, input⟩ := pair
    obtain ⟨first, others⟩ := List.forall_mem_cons.mp sound
    rw [emitAll, exec_bind] at ran
    rw [List.flatMap_cons]
    cases one : exec (emitOne (Host.store locate) options files r file input) w with
    | mk result' =>
      rw [one] at ran
      cases result' with
      | ok =>
        have reported := reports_emitOne first one fun path failed => by cases failed
        exact reported.append (ih others ran)
      | error =>
        cases ran
        exact (reports_emitOne first one writable).stopped _

end Emitting

/-! ### Commands -/

/-- The span of a diagnostic is empty and begins a byte behind the end of its source. -/
def Beyond (files : List SourceFile) (d : Diagnostic) : Prop :=
  ∃ name text span, d.file = some name ∧ sourceText? files name = some text ∧
    d.span = some span ∧ span.length = 0 ∧ span.start.toNat = text.utf8ByteSize + 1

variable {files : List SourceFile} {w : World} {inputs : List String}

/-- A report breaks off at places behind the end of their source. -/
theorem breaksOff_iff (breaks : locate.BreaksBeyond) {d : Diagnostic} :
    breaksOff locate files d = true ↔ Beyond files d := by
  unfold breaksOff Reporter.breaksOff
  constructor
  · intro broken
    split at broken
    · rename_i located
      simp only [Reporter.location?, Option.bind_eq_bind, Option.bind_eq_some_iff] at located
      obtain ⟨name, file, text, ⟨name', file', source⟩, span, place, beyond⟩ := located
      obtain rfl := Option.some.inj (file.symm.trans file')
      obtain ⟨_, beyond⟩ := Prod.mk.inj (Option.some.inj beyond)
      exact ⟨name, text, span, file, source, place, (breaks text span).mp beyond⟩
    · cases broken
  · rintro ⟨name, text, span, file, source, place, behind⟩
    have beyond := (breaks text span).mpr behind
    simp [Reporter.location?, file, source, place, beyond]

/-- A command that only checks reports what is found in all files. -/
theorem Loads.exec_check {a : Arguments} {options : Options}
    (loads : Loads locate a w inputs files options) (checks : options.checksOnly = true) :
    exec (run (Host.store locate) a) w = concluded (exec (reportAll (Host.store locate) files
      { limit := options.maxDiagnostics } (checkAll files)) w) := by
  rw [loads.exec_run, if_pos checks]

/-- How a command ends that hands diagnostics about files to a new reporter. -/
structure Ends (locate : Locator) (files : List SourceFile) (limit : Option Nat)
    (handed : List Diagnostic) (w : World) (result : Except Failure UInt32) (w' : World) :
    Prop where
  broken : (∃ d ∈ ({ limit } : Reporter).shown handed, Beyond files d) →
    result = .error .brokenReport ∧
      w'.err = w.err ++ transcript locate files (({ limit } : Reporter).shown handed)
  whole : (¬ ∃ d ∈ ({ limit } : Reporter).shown handed, Beyond files d) →
    result = .ok (if ∀ file ∈ files, file.check = [] then 0 else 2) ∧
      w'.err = w.err ++ (transcript locate files (({ limit } : Reporter).shown handed) ++
        (({ limit } : Reporter).after handed).summary)

theorem Reports.ends_concluded (breaks : locate.BreaksBeyond) {limit : Option Nat}
    {handed : List Diagnostic} {w' : World} {result : Except Failure Reporter}
    (reports : Reports locate files { limit } handed w result w')
    (perm : handed.Perm (files.flatMap SourceFile.check)) :
    Ends locate files limit handed w (concluded (result, w')).1 (concluded (result, w')).2 := by
  have any : (∃ d ∈ ({ limit } : Reporter).shown handed, Beyond files d) ↔
      (({ limit } : Reporter).shown handed).any (breaksOff locate files) = true := by
    simp only [List.any_eq_true, breaksOff_iff breaks]
  have clean : handed.length = 0 ↔ ∀ file ∈ files, file.check = [] := by
    rw [perm.length_eq, List.length_eq_zero_iff, List.flatMap_eq_nil_iff]
  cases result with
  | error =>
    obtain ⟨broken, rfl⟩ := reports.of_error
    exact ⟨fun _ => ⟨rfl, reports.prints⟩, fun whole => absurd (any.mpr broken) whole⟩
  | ok =>
    obtain ⟨whole, rfl⟩ := reports.of_ok
    refine ⟨fun broken => ?_, fun _ => ⟨?_, ?_⟩⟩
    · cases whole.symm.trans (any.mp broken)
    · change Except.ok (if (({ limit } : Reporter).after handed).failed then 2 else 0) = _
      rw [Reporter.after_new, Reporter.failed]
      by_cases none : ∀ file ∈ files, file.check = []
      · rw [if_pos none, clean.mpr none]
        rfl
      · have some_ : 0 < handed.length := Nat.pos_of_ne_zero (mt clean.mp none)
        rw [if_neg none, if_pos (decide_eq_true some_)]
    · change w'.err ++ (({ limit } : Reporter).after handed).summary = _
      rw [reports.prints, String.append_assoc]

/-- A command that only checks and one that compiles hand the same diagnostics to the reporter:
those of each file, sorted or in the order of the inputs. They show as many, up to the limit, hold
back as many and count as many. Both end with 2 if any file has a diagnostic and with 0 otherwise,
except that a command breaks off if it shows a diagnostic with an empty span a byte behind the end
of its source. -/
theorem modes_report_alike (breaks : locate.BreaksBeyond) {a a' : Arguments} {w : World}
    {inputs : List String} {files : List SourceFile} {options options' : Options}
    (loads : Loads locate a w inputs files options)
    (loads' : Loads locate a' w inputs files options') (checks : options.checksOnly = true)
    (emits : options'.checksOnly = false) (limit : options'.maxDiagnostics = options.maxDiagnostics)
    (sound : ∀ file ∈ files, emittable file = true)
    (writable : ∀ path, (exec (run (Host.store locate) a') w).1 ≠ .error (.outputUnwritable path)) :
    (checkAll files).Perm (files.flatMap SourceFile.check) ∧
    ({ limit := options.maxDiagnostics } : Reporter).after (checkAll files) =
      ({ limit := options.maxDiagnostics } : Reporter).after (files.flatMap SourceFile.check) ∧
    ({ limit := options.maxDiagnostics } : Reporter).after (checkAll files) =
      { limit := options.maxDiagnostics
        printed := options.maxDiagnostics.elim (files.flatMap SourceFile.check).length
          (min (files.flatMap SourceFile.check).length)
        total := (files.flatMap SourceFile.check).length } ∧
    Ends locate files options.maxDiagnostics (checkAll files) w
      (exec (run (Host.store locate) a) w).1 (exec (run (Host.store locate) a) w).2 ∧
    Ends locate files options.maxDiagnostics (files.flatMap SourceFile.check) w
      (exec (run (Host.store locate) a') w).1 (exec (run (Host.store locate) a') w).2 := by
  have perm := checkAll_perm_flatMap files
  have same := ({ limit := options.maxDiagnostics } : Reporter).after_perm perm
  refine ⟨perm, same, same.trans (Reporter.after_new _ _), ?_, ?_⟩
  · rw [loads.exec_check checks]
    exact (reports_reportAll files _ _ w).ends_concluded breaks perm
  · rw [loads'.exec_run, emits, if_neg Bool.false_ne_true, limit] at writable ⊢
    have names : (files.zip inputs).map Prod.fst = files :=
      List.map_fst_zip (Nat.le_of_eq (length_of_loadAll loads.loaded))
    have all : (files.zip inputs).flatMap (·.1.check) = files.flatMap SourceFile.check := by
      rw [← List.flatMap_map, names]
    have sound' : ∀ p ∈ files.zip inputs, emittable p.1 = true := fun p mem =>
      sound p.1 (names ▸ List.mem_map_of_mem mem)
    cases ran : exec (emitAll (Host.store locate) options' files { limit := options.maxDiagnostics }
        (files.zip inputs)) w with
    | mk =>
      rw [ran] at writable
      refine (all ▸ reports_emitAll sound' ran fun path failed => ?_).ends_concluded breaks
        (.refl _)
      rw [failed] at writable
      exact writable path rfl

/-- Three files that use an unknown name. The source of the first one is not known, and the name in
the second one is a byte behind the end of the source. -/
def unevenWorld : World where
  store := ⟨[
    (["late.json"],
      "[\"b\",null,[[\"Print\",[\"Variable\",\"q\",[0,1]],[0,1]]],[0,1]]".toUTF8.toList),
    (["early.json"],
      "[\"a\",\"abc\",[[\"Print\",[\"Variable\",\"q\",[4,0]],[4,0]]],[0,0]]".toUTF8.toList),
    (["middle.json"],
      "[\"aa\",\"abc\",[[\"Print\",[\"Variable\",\"p\",[1,1]],[0,3]]],[0,3]]".toUTF8.toList)]⟩

theorem loads_unevenWorld (noEmit : Bool) (asked : inputs ≠ [])
    (loads : (exec (loadAll Host.store inputs) unevenWorld).1.toOption.isSome = true) :
    Loads Location.of { files := inputs, noEmit, maxDiagnostics := some 1 } unevenWorld inputs
      (loadedFiles inputs unevenWorld)
      { noEmit := if noEmit then some true else none, maxDiagnostics := some 1 } := by
  refine ⟨rfl, ⟨{}, ?_, ?_⟩, loaded_of_isSome loads, asked, fun given => by cases given⟩
  · cases inputs with
    | nil => exact absurd rfl asked
    | cons => rfl
  · cases noEmit <;> rfl

/-- Of two diagnostics one is shown in either order. -/
theorem modes_alike_to_limit :
    ∃ w₁ w₂ shown₁ shown₂,
      exec (run Host.store
          { files := ["late.json", "middle.json"], noEmit := true, maxDiagnostics := some 1 })
        unevenWorld = (.ok 2, w₁) ∧
      w₁.err = shown₁ ++ "... 1 more diagnostic(s) not shown.\n\nFound 2 errors.\n" ∧
      exec (run Host.store { files := ["late.json", "middle.json"], maxDiagnostics := some 1 })
        unevenWorld = (.ok 2, w₂) ∧
      w₂.err = shown₂ ++ "... 1 more diagnostic(s) not shown.\n\nFound 2 errors.\n" := by
  have known :
      ((exec (loadAll Host.store ["late.json", "middle.json"])
        unevenWorld).1.toOption.isSome = true ∧
      (loadedFiles ["late.json", "middle.json"] unevenWorld).all emittable = true) ∧
      ((loadedFiles ["late.json", "middle.json"] unevenWorld).flatMap SourceFile.check).any
        (breaksOff Location.of (loadedFiles ["late.json", "middle.json"] unevenWorld)) = false ∧
      ((loadedFiles ["late.json", "middle.json"] unevenWorld).flatMap
        SourceFile.check).length = 2 ∧
      (exec (run Host.store { files := ["late.json", "middle.json"], maxDiagnostics := some 1 })
        unevenWorld).1 = .ok 2 := by
    decide +kernel
  obtain ⟨⟨loads, sound⟩, whole, two, ended⟩ := known
  obtain ⟨perm, same, counts, checked, emitted⟩ := modes_report_alike
    Location.breaksBeyond_of (loads_unevenWorld true (List.cons_ne_nil _ _) loads)
    (loads_unevenWorld false (List.cons_ne_nil _ _) loads)
    rfl rfl rfl (List.all_eq_true.mp sound) fun path failed => by cases ended.symm.trans failed
  generalize loadedFiles ["late.json", "middle.json"] unevenWorld = files at *
  have unbroken : ∀ handed : List Diagnostic, handed.Perm (files.flatMap SourceFile.check) →
      ¬ ∃ d ∈ ({ limit := some 1 } : Reporter).shown handed, Beyond files d := by
    rintro handed perm ⟨d, mem, beyond⟩
    have mem' := perm.mem_iff.mp (List.mem_of_mem_take mem)
    exact List.any_eq_false.mp whole d mem' ((breaksOff_iff Location.breaksBeyond_of).mpr beyond)
  rw [two] at counts
  obtain ⟨code, text⟩ := checked.whole (unbroken _ perm)
  obtain ⟨code', text'⟩ := emitted.whole (unbroken _ (.refl _))
  rw [counts, ← String.append_assoc] at text
  rw [← same, counts, ← String.append_assoc] at text'
  exact ⟨_, _, _, _, Prod.ext (code.trans (code'.symm.trans ended)) rfl, text, Prod.ext ended rfl,
    text'⟩

/-- The name behind the end of its source comes first if the diagnostics are sorted, and the command
breaks off. If the files are reported in turn it is not shown. -/
theorem order_decides_exit_code :
    ∃ files,
      Loads Location.of
        { files := ["late.json", "early.json"], noEmit := true, maxDiagnostics := some 1 }
        unevenWorld ["late.json", "early.json"] files
        { noEmit := some true, maxDiagnostics := some 1 } ∧
      Loads Location.of { files := ["late.json", "early.json"], maxDiagnostics := some 1 }
        unevenWorld ["late.json", "early.json"] files { maxDiagnostics := some 1 } ∧
      files.all emittable = true ∧
      (exec (run Host.store
          { files := ["late.json", "early.json"], noEmit := true, maxDiagnostics := some 1 })
        unevenWorld).1 = .error .brokenReport ∧
      (exec (run Host.store { files := ["late.json", "early.json"], maxDiagnostics := some 1 })
        unevenWorld).1 = .ok 2 := by
  have known :
      ((exec (loadAll Host.store ["late.json", "early.json"])
        unevenWorld).1.toOption.isSome = true ∧
      (loadedFiles ["late.json", "early.json"] unevenWorld).all emittable = true) ∧
      ((loadedFiles ["late.json", "early.json"] unevenWorld).map (·.fileName)).Nodup ∧
      ((loadedFiles ["late.json", "early.json"] unevenWorld).reverse.flatMap
        SourceFile.check).Pairwise (·.notAfter ·) ∧
      (({ limit := some 1 } : Reporter).shown
          ((loadedFiles ["late.json", "early.json"] unevenWorld).reverse.flatMap
            SourceFile.check)).any
        (breaksOff Location.of (loadedFiles ["late.json", "early.json"] unevenWorld)) = true ∧
      (exec (run Host.store { files := ["late.json", "early.json"], maxDiagnostics := some 1 })
        unevenWorld).1 = .ok 2 := by
    decide +kernel
  obtain ⟨⟨loads, sound⟩, distinct, sorted, broken, ended⟩ := known
  have checks := loads_unevenWorld true (List.cons_ne_nil _ _) loads
  refine ⟨_, checks, loads_unevenWorld false (List.cons_ne_nil _ _) loads, sound, ?_, ended⟩
  rw [checks.exec_check rfl, exec_reportAll,
    ← checkAll_perm distinct (List.reverse_perm _).symm, checkAll_of_sorted sorted, if_pos broken]
  rfl

end Bindery.Cli
