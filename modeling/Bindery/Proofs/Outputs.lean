import Bindery.Cli.Run
import Bindery.Proofs.StackDiscipline

/-!
What a command writes.

A command compiles its inputs one after the other. An input with diagnostics is reported and
passed over, but the command ends at an input whose tree is incomplete, whose code does not fit,
or whose report breaks off (`stops?`). So the image of a clean input is written if no input before
it ends the command, and nothing else is written (`images_written`).
-/

namespace Bindery.Store

/-! ### Places of paths -/

def target? (path : String) : Option Place := do
  let components ← components? path
  let name ← components.getLast?
  let parent ← walk (fun _ => true) (start path) components.dropLast
  return parent ++ [name]

/-- Two paths that are spelled differently and do not lead to the same place. -/
def Apart (path other : String) : Prop :=
  path ≠ other ∧ (target? path = none ∨ target? path ≠ target? other)

instance (path other : String) : Decidable (Apart path other) :=
  inferInstanceAs (Decidable (_ ∧ _))

variable {path : String} {place : Place}

/-- Paths that lie apart lead to different places. -/
theorem Apart.not_same {other : String} (apart : Apart path other)
    (leads : target? path = some place) : target? other ≠ some place := by
  intro leads'
  rcases apart.2 with none | differ
  · cases none.symm.trans leads
  · exact differ (leads.trans leads'.symm)

theorem walk_of_isDirectory {isDirectory : Place → Bool} {reached : Place}
    {components : List String} (way : walk isDirectory place components = some reached) :
    walk (fun _ => true) place components = some reached := by
  induction components generalizing place with
  | nil => exact way
  | cons component _ ih =>
    rw [walk] at way ⊢
    cases there : isDirectory place with
    | false =>
      rw [there] at way
      cases way
    | true =>
      rw [there] at way
      simp only [Bool.not_true, Bool.false_eq_true, if_false] at way ⊢
      by_cases same : component = "" ∨ component = "."
      · rw [if_pos same] at way ⊢
        exact ih way
      · rw [if_neg same] at way ⊢
        by_cases above : component = ".."
        · rw [if_pos above] at way ⊢
          exact ih way
        · rw [if_neg above] at way ⊢
          exact ih way

/-- A file that can be written is put where its path leads. -/
theorem write?_eq_some {s s' : Store} {contents : List UInt8}
    (written : s.write? path contents = some s') :
    ∃ place, target? path = some place ∧ s' = s.put place contents := by
  simp only [write?, Option.bind_eq_bind, Option.bind_eq_some_iff] at written
  obtain ⟨components, split, name, last, rest⟩ := written
  split at rest
  · cases rest
  · obtain ⟨parent, way, rest⟩ := Option.bind_eq_some_iff.mp rest
    split at rest
    · cases rest
    · cases rest
      refine ⟨parent ++ [name], ?_, rfl⟩
      simp [target?, split, last, walk_of_isDirectory way]

end Bindery.Store

namespace Bindery.Cli

/-! ### Runs on a store -/

def exec {α : Type} (x : ExceptT Failure (StateM World) α) (w : World) :
    Except Failure α × World :=
  (x.run.run w).run

variable {locate : Locator}

section Exec

variable {α β : Type} {w w' : World}

theorem exec_lift (x : StateM World α) (w : World) :
    exec (liftM x) w = (.ok (x.run w).run.1, (x.run w).run.2) := rfl

theorem exec_out (text : String) (w : World) :
    exec (liftM ((Host.store locate).out text)) w = (.ok (), { w with out := w.out ++ text }) := rfl

/-- Writing a file fails or changes the store. -/
theorem exec_write (path : String) (contents : List UInt8) (w : World) :
    exec (liftM ((Host.store locate).write path contents)) w =
      match w.store.write? path contents with
      | some store => (.ok true, { w with store })
      | none => (.ok false, w) := by
  rw [exec_lift, Host.store]
  simp only [StateT.run]
  cases w.store.write? path contents with
  | some => rfl
  | none => rfl

theorem exec_read (path : String) (w : World) :
    exec (liftM ((Host.store locate).read? path)) w =
      (.ok (do String.fromUTF8? ⟨(← w.store.read? path).toArray⟩), w) := rfl

theorem exec_err (text : String) (w : World) :
    exec (liftM ((Host.store locate).err text)) w = (.ok (), { w with err := w.err ++ text }) := rfl

/-- A command in two parts ends in the first one or goes on with what that has left. -/
theorem exec_bind (x : ExceptT Failure (StateM World) α)
    (f : α → ExceptT Failure (StateM World) β) (w : World) :
    exec (x >>= f) w =
      match exec x w with
      | (.ok a, w') => exec (f a) w'
      | (.error failure, w') => (.error failure, w') := by
  change ExceptT.bindCont f (exec x w).1 (exec x w).2 = _
  obtain ⟨result, w'⟩ := exec x w
  cases result with
  | ok => rfl
  | error => rfl

end Exec

/-! ### Reports -/

namespace Reporter

def shown (r : Reporter) (found : List Diagnostic) : List Diagnostic :=
  match r.limit with
  | some limit => found.take (limit - r.printed)
  | none => found

def after (r : Reporter) (found : List Diagnostic) : Reporter :=
  { r with printed := r.printed + (r.shown found).length, total := r.total + found.length }

theorem shown_nil (r : Reporter) : r.shown [] = [] := by
  unfold shown
  split <;> simp

theorem after_nil (r : Reporter) : r.after [] = r := by
  rw [after, shown_nil]
  rfl

theorem shown_cons (r : Reporter) (locate : Locator) (d : Diagnostic) (rest : List Diagnostic)
    (source : Option String) :
    r.shown (d :: rest) =
      (if r.hasRoom then [d] else []) ++ (r.report locate d source).2.shown rest := by
  obtain ⟨limit, printed, total⟩ := r
  cases limit with
  | none => rfl
  | some limit =>
    by_cases room : printed < limit
    · have step : limit - printed = limit - (printed + 1) + 1 := by omega
      simp [shown, report, hasRoom, room, step]
    · have none : limit - printed = 0 := by omega
      simp [shown, report, hasRoom, room, none]

theorem after_cons (r : Reporter) (locate : Locator) (d : Diagnostic) (rest : List Diagnostic)
    (source : Option String) : r.after (d :: rest) = (r.report locate d source).2.after rest := by
  rw [after, r.shown_cons locate d rest source, after]
  unfold report
  split
  · simp
    omega
  · simp
    omega

end Reporter

def breaksOff (locate : Locator) (files : List SourceFile) (d : Diagnostic) : Bool :=
  Reporter.breaksOff locate d (d.file.bind (sourceText? files))

/-- What is printed about diagnostics, up to one whose report breaks off. -/
def transcript (locate : Locator) (files : List SourceFile) : List Diagnostic → String
  | [] => ""
  | d :: rest =>
    Reporter.entry locate d (d.file.bind (sourceText? files)) ++
      if breaksOff locate files d then "" else transcript locate files rest

/-- A report breaks off at its first diagnostic or behind it. -/
theorem any_breaksOff_cons (locate : Locator) (files : List SourceFile) (r : Reporter)
    (d : Diagnostic) (rest : List Diagnostic) (source : Option String) :
    (r.shown (d :: rest)).any (breaksOff locate files) = (r.hasRoom && breaksOff locate files d ||
      ((r.report locate d source).2.shown rest).any (breaksOff locate files)) := by
  rw [r.shown_cons locate d rest source, List.any_append]
  cases r.hasRoom <;> simp

/-- Diagnostics are reported one by one. -/
theorem transcript_cons (files : List SourceFile) (r : Reporter) (d : Diagnostic)
    (rest : List Diagnostic) {source : Option String}
    (known : source = d.file.bind (sourceText? files)) :
    transcript locate files (r.shown (d :: rest)) = (r.report locate d source).1 ++
      if r.hasRoom && breaksOff locate files d then ""
      else transcript locate files ((r.report locate d source).2.shown rest) := by
  rw [r.shown_cons locate d rest source, Reporter.report, known]
  cases r.hasRoom with
  | true => rfl
  | false => simp

/-- Reports change what is printed, and nothing else. -/
theorem exec_reportAll (files : List SourceFile) (r : Reporter) (found : List Diagnostic)
    (w : World) :
    exec (reportAll (Host.store locate) files r found) w =
      (if (r.shown found).any (breaksOff locate files) then .error .brokenReport
        else .ok (r.after found),
        { w with err := w.err ++ transcript locate files (r.shown found) }) := by
  induction found generalizing r w with
  | nil =>
    rw [r.shown_nil, r.after_nil, transcript, String.append_empty]
    rfl
  | cons d rest ih =>
    rw [any_breaksOff_cons locate files r d rest (d.file.bind (sourceText? files)),
      r.after_cons locate d rest (d.file.bind (sourceText? files)),
      transcript_cons files r d rest rfl, reportAll, exec_bind, exec_err]
    by_cases broken : (r.hasRoom && breaksOff locate files d) = true
    · rw [broken, if_pos rfl, String.append_empty]
      exact congrArg (exec · _) (if_pos broken)
    · rw [eq_false_of_ne_true broken, Bool.false_or, if_neg Bool.false_ne_true,
        ← String.append_assoc]
      exact (congrArg (exec · _) (if_neg broken)).trans (ih _ _)

/-! ### One input -/

def found (file : SourceFile) : List Diagnostic :=
  match file.compile with
  | .error (.diagnostics found) => found
  | _ => []

def stops? (locate : Locator) (files : List SourceFile) (r : Reporter) (file : SourceFile) :
    Option Failure :=
  match file.compile with
  | .ok _ => none
  | .error (.diagnostics found) =>
    if (r.shown found).any (breaksOff locate files) then some .brokenReport else none
  | .error (.incomplete span) => some (.incomplete file.fileName span)
  | .error (.emit cause) => some (.internal file.fileName cause)

/-- What an input that the command does not end at makes of a store. -/
inductive Stores (options : Options) (file : SourceFile) (input : String) (s : Store) :
    Store → Prop where
  | image {image place} : file.compile = .ok image →
      Store.target? (outputPath input options.outFile) = some place →
      Stores options file input s (s.put place image.encode)
  | nothing : (∀ image, file.compile ≠ .ok image) → Stores options file input s s

variable {file : SourceFile} {image : Machine.Image} {options : Options} {files : List SourceFile}
    {w : World} {inputs : List String}

/-- The code of a compiled file can be listed. -/
theorem listing_of_compile (compiled : file.compile = .ok image) :
    ∃ listing, image.listing = .ok listing := by
  obtain ⟨_, written⟩ := SourceFile.emit_of_compile compiled
  obtain ⟨code, e, emitted, _, bytes⟩ := Bound.Program.emitCode_of_emit written
  have read := Bound.Program.disassemble_of_emitCode emitted
  rw [← bytes] at read
  unfold Machine.Image.listing
  rw [read]
  exact ⟨_, rfl⟩

section One

variable {r : Reporter} {input : String} {w' : World} {result : Except Failure Reporter}

/-- The image of an input is put to its place, if it can be written at all. -/
theorem stores_of_write (compiled : file.compile = .ok image) (ran : exec (do
      let done ← liftM ((Host.store locate).write (outputPath input options.outFile) image.encode)
      if !done then do
        throw (Failure.outputUnwritable (outputPath input options.outFile))
        pure r
      else pure r) w = (result, w')) (writable : ∀ path, result ≠ .error (.outputUnwritable path)) :
    (result = .ok r ∧ Stores options file input w.store w'.store) ∧ w'.err = w.err := by
  rw [exec_bind, exec_write] at ran
  cases written : w.store.write? (outputPath input options.outFile) image.encode with
  | none =>
    rw [written] at ran
    cases ran
    exact absurd rfl (writable _)
  | some =>
    rw [written] at ran
    cases ran
    obtain ⟨place, leads, rfl⟩ := Store.write?_eq_some written
    exact ⟨⟨rfl, .image compiled leads⟩, rfl⟩

/-- An input ends the command, or is reported, or leaves its image. What is printed as an error is
its report. -/
theorem exec_emitOne
    (ran : exec (emitOne (Host.store locate) options files r file input) w = (result, w'))
    (writable : ∀ path, result ≠ .error (.outputUnwritable path)) :
    ((∃ failure, stops? locate files r file = some failure ∧ result = .error failure ∧
      w'.store = w.store) ∨
    (stops? locate files r file = none ∧ result = .ok (r.after (found file)) ∧
      Stores options file input w.store w'.store)) ∧
    w'.err = w.err ++ transcript locate files (r.shown (found file)) := by
  unfold emitOne at ran
  unfold stops? found
  cases compiled : file.compile with
  | ok =>
    simp only [compiled] at ran ⊢
    obtain ⟨listing, listed⟩ := listing_of_compile compiled
    rw [r.after_nil, r.shown_nil, transcript, String.append_empty]
    simp only [listed] at ran
    by_cases lists : options.lists = true
    · rw [if_pos lists, exec_bind, exec_out] at ran
      -- The listing is printed before and leaves the store as it is.
      have written := stores_of_write compiled ran writable
      exact ⟨.inr ⟨trivial, written.1⟩, written.2⟩
    · rw [if_neg lists] at ran
      have written := stores_of_write compiled ran writable
      exact ⟨.inr ⟨trivial, written.1⟩, written.2⟩
  | error err =>
    have nothing : ∀ image, file.compile ≠ .ok image := by
      intro image other
      rw [compiled] at other
      cases other
    cases err with
    | diagnostics found =>
      simp only [compiled] at ran ⊢
      rw [exec_reportAll] at ran
      cases ran
      by_cases broken : (r.shown found).any (breaksOff locate files) = true
      · rw [if_pos broken, if_pos broken]
        exact ⟨.inl ⟨_, rfl, rfl, rfl⟩, rfl⟩
      · rw [if_neg broken, if_neg broken]
        exact ⟨.inr ⟨rfl, rfl, .nothing nothing⟩, rfl⟩
    | incomplete | emit =>
      simp only [compiled] at ran ⊢
      rw [r.shown_nil, transcript, String.append_empty]
      cases ran
      exact ⟨.inl ⟨_, rfl, rfl, rfl⟩, rfl⟩

end One

/-! ### All inputs -/

def Passes (locate : Locator) (files : List SourceFile) (r : Reporter) :
    List SourceFile → Prop
  | [] => True
  | file :: rest =>
    stops? locate files r file = none ∧ Passes locate files (r.after (found file)) rest

/-- The store holds the image of each clean input that is not behind one at which the command
ends, and is unchanged elsewhere. -/
structure Delivers (locate : Locator) (options : Options) (files : List SourceFile) (r : Reporter)
    (inputs : List (SourceFile × String)) (s s' : Store) : Prop where
  images : ∀ before file input after image, inputs = before ++ (file, input) :: after →
    Passes locate files r (before.map Prod.fst) → file.compile = .ok image →
      ∃ place, Store.target? (outputPath input options.outFile) = some place ∧
        s'.get? place = some image.encode
  others : ∀ place, s'.get? place ≠ s.get? place → ∃ before file input after image,
    inputs = before ++ (file, input) :: after ∧ Passes locate files r (before.map Prod.fst) ∧
      file.compile = .ok image ∧ Store.target? (outputPath input options.outFile) = some place

namespace Delivers

variable {r : Reporter} {input : String} {rest : List (SourceFile × String)} {s s₁ s' : Store}

theorem nil (options : Options) (files : List SourceFile) (r : Reporter) (s : Store) :
    Delivers locate options files r [] s s where
  images before _ _ _ _ split := by simp at split
  others _ changed := absurd rfl changed

/-- Nothing is written from an input on at which the command ends. -/
theorem stopped {failure : Failure} (stops : stops? locate files r file = some failure) :
    Delivers locate options files r ((file, input) :: rest) s s where
  images before file' input' after image split passes compiled := by
    cases before with
    | nil =>
      cases split
      rw [stops?, compiled] at stops
      cases stops
    | cons =>
      cases split
      cases stops.symm.trans passes.1
  others _ changed := absurd rfl changed

/-- An input that the command does not end at, and the inputs behind it. -/
theorem cons (passes : stops? locate files r file = none) (stored : Stores options file input s s₁)
    (behind : Delivers locate options files (r.after (found file)) rest s₁ s') (apart : ∀ q ∈ rest,
      Store.Apart (outputPath input options.outFile) (outputPath q.2 options.outFile)) :
    Delivers locate options files r ((file, input) :: rest) s s' where
  images before file' input' after image split passed compiled := by
    cases before with
    | nil =>
      cases split
      cases stored with
      | @image _ place compiled' leads =>
        cases compiled.symm.trans compiled'
        refine ⟨place, leads, ?_⟩
        -- No later image goes to the same place.
        by_cases kept : s'.get? place = (s.put place image.encode).get? place
        · rw [kept, Store.get?_put, if_pos rfl]
        · obtain ⟨before, file', input', after, _, split, _, _, leads'⟩ := behind.others place kept
          have mem : (file', input') ∈ rest := by simp [split]
          exact absurd leads' ((apart _ mem).not_same leads)
      | nothing none => exact absurd compiled (none image)
    | cons _ before =>
      cases split
      exact behind.images before file' input' after image rfl passed.2 compiled
  others place changed := by
    by_cases kept : s'.get? place = s₁.get? place
    · rw [kept] at changed
      cases stored with
      | @image image place' compiled leads =>
        rw [Store.get?_put] at changed
        by_cases here : place = place'
        · exact ⟨[], file, input, rest, image, rfl, trivial, compiled, here ▸ leads⟩
        · rw [if_neg here] at changed
          exact absurd rfl changed
      | nothing none => exact absurd rfl changed
    · obtain ⟨before, file', input', after, image, rfl, passed, written⟩ :=
        behind.others place kept
      exact ⟨(file, input) :: before, file', input', after, image, rfl, ⟨passes, passed⟩, written⟩

end Delivers

/-- Compiling the inputs in order delivers their images up to the first input that the command
ends at. -/
theorem exec_emitAll {r : Reporter} {inputs : List (SourceFile × String)} {w' : World}
    {result : Except Failure Reporter} (apart : inputs.Pairwise fun p q =>
      Store.Apart (outputPath p.2 options.outFile) (outputPath q.2 options.outFile))
    (ran : exec (emitAll (Host.store locate) options files r inputs) w = (result, w'))
    (writable : ∀ path, result ≠ .error (.outputUnwritable path)) :
    Delivers locate options files r inputs w.store w'.store := by
  induction inputs generalizing r w with
  | nil =>
    cases ran
    exact .nil options files r _
  | cons pair _ ih =>
    obtain ⟨file, input⟩ := pair
    obtain ⟨first, others⟩ := List.pairwise_cons.mp apart
    rw [emitAll, exec_bind] at ran
    cases one : exec (emitOne (Host.store locate) options files r file input) w with
    | mk result' =>
      rw [one] at ran
      have writable' : ∀ path, result' ≠ .error (.outputUnwritable path) := by
        rintro path rfl
        cases ran
        exact writable path rfl
      rcases (exec_emitOne one writable').1 with ⟨failure, stops, rfl, same⟩ | ⟨passes, rfl, stored⟩
      · cases ran
        rw [same]
        exact .stopped stops
      · exact .cons passes stored (ih others ran) first

/-! ### Commands -/

def OnlyReads {α : Type} (x : ExceptT Failure (StateM World) α) : Prop :=
  ∀ w, (exec x w).2 = w

namespace OnlyReads

variable {α β : Type}

theorem pure (a : α) : OnlyReads (Pure.pure a) := fun _ => rfl

theorem throw (failure : Failure) :
    OnlyReads (MonadExcept.throw failure : ExceptT Failure (StateM World) α) := fun _ => rfl

theorem read (path : String) : OnlyReads (liftM ((Host.store locate).read? path)) := fun _ => rfl

theorem bind {x : ExceptT Failure (StateM World) α} {f : α → ExceptT Failure (StateM World) β}
    (first : OnlyReads x) (second : ∀ a, OnlyReads (f a)) : OnlyReads (x >>= f) := by
  intro w
  have same := first w
  rw [exec_bind]
  cases ran : exec x w with
  | mk result w' =>
    rw [ran] at same
    cases result with
    | ok a => exact (second a w').trans same
    | error => exact same

end OnlyReads

/-- Finding the project file changes nothing. -/
theorem onlyReads_projectFile? (a : Arguments) :
    OnlyReads (ExceptT.lift (projectFile? (Host.store locate) a)) := by
  intro w
  change ((projectFile? (Host.store locate) a).run w).run.2 = w
  unfold projectFile?
  cases a.project with
  | some path =>
    change ((ite (w.store.isDirectory path = true) _ _ : StateM World _).run w).run.2 = w
    split
    · rfl
    · rfl
  | none =>
    by_cases nothing : a.files.isEmpty = true
    · simp only [nothing, if_true]
      change ((ite (w.store.holds projectFileName = true) _ _ : StateM World _).run w).run.2 = w
      split
      · rfl
      · rfl
    · simp only [nothing]
      rfl

/-- Finding the inputs writes nothing. -/
theorem onlyReads_resolveInputs (a : Arguments) :
    OnlyReads (resolveInputs (Host.store locate) a) := by
  refine (onlyReads_projectFile? a).bind fun path? => ?_
  cases path? with
  | none => exact .pure _
  | some path =>
    refine (OnlyReads.read path).bind fun text? => ?_
    cases text? with
    | none => exact .throw _
    | some text =>
      cases read : Project.ofText? text with
      | none =>
        simp only [read]
        exact .throw _
      | some =>
        simp only [read]
        exact .pure _

/-- Loading the inputs writes nothing. -/
theorem onlyReads_loadAll (inputs : List String) :
    OnlyReads (loadAll (Host.store locate) inputs) := by
  induction inputs with
  | nil => exact .pure _
  | cons path _ ih =>
    refine (OnlyReads.read path).bind fun text? => ?_
    cases text? with
    | none => exact .throw _
    | some text =>
      cases read : SourceFile.ofText? text with
      | none =>
        simp only [read]
        exact .throw _
      | some =>
        simp only [read]
        exact ih.bind fun _ => .pure _

/-- Each input is read as one file. -/
theorem length_of_loadAll (loaded : (exec (loadAll (Host.store locate) inputs) w).1 = .ok files) :
    files.length = inputs.length := by
  induction inputs generalizing files with
  | nil =>
    cases loaded
    rfl
  | cons path rest ih =>
    rw [loadAll, exec_bind, exec_read] at loaded
    cases text? : (do String.fromUTF8? ⟨(← w.store.read? path).toArray⟩ : Option String) with
    | none =>
      rw [text?] at loaded
      cases loaded
    | some text =>
      rw [text?] at loaded
      cases read : SourceFile.ofText? text with
      | none =>
        simp only [read] at loaded
        cases loaded
      | some =>
        simp only [read] at loaded
        rw [exec_bind] at loaded
        cases others : exec (loadAll (Host.store locate) rest) w with
        | mk result =>
          rw [others] at loaded ih
          cases result with
          | error => cases loaded
          | ok =>
            cases loaded
            exact congrArg (· + 1) (ih rfl)

/-- `Prepares locate a w inputs files options`: the command is to compile the inputs, which are
read as the files, with the options. -/
structure Prepares (locate : Locator) (a : Arguments) (w : World) (inputs : List String)
    (files : List SourceFile) (options : Options) : Prop where
  compiles : a.init = false
  resolved : ∃ given, (exec (resolveInputs (Host.store locate) a) w).1 = .ok (inputs, given) ∧
    options = given.merge a.overrides
  loaded : (exec (loadAll (Host.store locate) inputs) w).1 = .ok files
  emits : options.checksOnly = false

/-- `Loads locate a w inputs files options`: the command comes to check or compile the files, which
it has read from the inputs, with the options. -/
structure Loads (locate : Locator) (a : Arguments) (w : World) (inputs : List String)
    (files : List SourceFile) (options : Options) : Prop where
  compiles : a.init = false
  resolved : ∃ given, (exec (resolveInputs (Host.store locate) a) w).1 = .ok (inputs, given) ∧
    options = given.merge a.overrides
  loaded : (exec (loadAll (Host.store locate) inputs) w).1 = .ok files
  asked : inputs ≠ []
  single : options.outFile.isSome → inputs.length ≤ 1

/-- How a command ends behind its reports: a summary is printed, unless it has failed. -/
def concluded : Except Failure Reporter × World → Except Failure UInt32 × World
  | (.ok r, w) => (.ok (if r.failed then 2 else 0), { w with err := w.err ++ r.summary })
  | (.error failure, w) => (.error failure, w)

/-- A command ends with a summary. -/
theorem exec_concluded (x : ExceptT Failure (StateM World) Reporter) (w : World) :
    exec (do
      let r ← x
      liftM ((Host.store locate).err r.summary)
      return if r.failed then 2 else 0) w = concluded (exec x w) := by
  rw [exec_bind]
  obtain ⟨result, w'⟩ := exec x w
  cases result with
  | ok => rfl
  | error => rfl

/-- A command that has read its files reports on them and sums up. -/
theorem Loads.exec_run {a : Arguments} (loads : Loads locate a w inputs files options) :
    exec (run (Host.store locate) a) w = concluded (exec (if options.checksOnly then
        reportAll (Host.store locate) files { limit := options.maxDiagnostics } (checkAll files)
      else emitAll (Host.store locate) options files { limit := options.maxDiagnostics }
        (files.zip inputs)) w) := by
  obtain ⟨compiles, ⟨given, resolved, rfl⟩, loaded, asked, single⟩ := loads
  have resolved' : exec (resolveInputs (Host.store locate) a) w = (.ok (inputs, given), w) :=
    Prod.ext resolved (onlyReads_resolveInputs a w)
  have loaded' : exec (loadAll (Host.store locate) inputs) w = (.ok files, w) :=
    Prod.ext loaded (onlyReads_loadAll inputs w)
  have some_ : ¬ inputs.isEmpty = true := fun none => asked (List.isEmpty_iff.mp none)
  have few : ¬ ((given.merge a.overrides).outFile.isSome = true ∧ 1 < inputs.length) :=
    fun both => absurd (single both.1) (Nat.not_le.mpr both.2)
  unfold run
  rw [compiles]
  simp only [Bool.false_eq_true, if_false]
  unfold compileInputs
  rw [exec_bind, resolved']
  simp only
  rw [if_neg some_, if_neg few, exec_bind, loaded']
  simp only
  split
  · exact exec_concluded _ w
  · exact exec_concluded _ w

/-- A command that is prepared compiles its inputs, unless there are none. -/
theorem Prepares.exec_run {a : Arguments} {w w' : World} {inputs : List String}
    {files : List SourceFile} {options : Options} {result : Except Failure UInt32}
    (prepared : Prepares locate a w inputs files options)
    (single : options.outFile.isSome → inputs.length ≤ 1)
    (ran : exec (run (Host.store locate) a) w = (result, w')) :
    inputs = [] ∧ w' = w ∨ ∃ result' w₁,
      exec (emitAll (Host.store locate) options files { limit := options.maxDiagnostics }
        (files.zip inputs)) w = (result', w₁) ∧ w'.store = w₁.store ∧
      ∀ failure, result' = .error failure → result = .error failure := by
  by_cases nothing : inputs = []
  · obtain ⟨compiles, ⟨given, resolved, rfl⟩, _, _⟩ := prepared
    have resolved' : exec (resolveInputs (Host.store locate) a) w = (.ok (inputs, given), w) :=
      Prod.ext resolved (onlyReads_resolveInputs a w)
    unfold run at ran
    rw [compiles] at ran
    simp only [Bool.false_eq_true, if_false] at ran
    unfold compileInputs at ran
    rw [exec_bind, resolved', nothing] at ran
    cases ran
    exact .inl ⟨nothing, rfl⟩
  · have loads : Loads locate a w inputs files options :=
      ⟨prepared.compiles, prepared.resolved, prepared.loaded, nothing, single⟩
    rw [loads.exec_run, prepared.emits, if_neg Bool.false_ne_true] at ran
    cases emitted : exec (emitAll (Host.store locate) options files
        { limit := options.maxDiagnostics } (files.zip inputs)) w with
    | mk result' w₁ =>
      rw [emitted] at ran
      refine .inr ⟨result', w₁, rfl, ?_⟩
      cases result' with
      | error =>
        cases ran
        refine ⟨rfl, fun other same => ?_⟩
        cases same
        rfl
      | ok =>
        cases ran
        refine ⟨rfl, fun other same => ?_⟩
        cases same

/-- The images of inputs with different output places are written as if each input were the only
one, up to the first at which the command ends: it does at an incomplete tree, at code that does
not fit, and at a report that breaks off, and no file behind such an input is written. What is at
other places does not change. -/
theorem images_written {a : Arguments} {w w' : World} {inputs : List String}
    {files : List SourceFile} {options : Options} {result : Except Failure UInt32}
    (prepared : Prepares locate a w inputs files options)
    (apart : inputs.Pairwise fun input other =>
      Store.Apart (outputPath input options.outFile) (outputPath other options.outFile))
    (ran : exec (run (Host.store locate) a) w = (result, w'))
    (writable : ∀ path, result ≠ .error (.outputUnwritable path)) :
    files.length = inputs.length ∧
      Delivers locate options files { limit := options.maxDiagnostics } (files.zip inputs) w.store
        w'.store := by
  have length := length_of_loadAll prepared.loaded
  refine ⟨length, ?_⟩
  have single : options.outFile.isSome → inputs.length ≤ 1 := by
    intro given
    obtain ⟨path, given⟩ := Option.isSome_iff_exists.mp given
    match inputs, apart with
    | [], _ => exact Nat.zero_le 1
    | [_], _ => exact Nat.le_refl 1
    | _ :: other :: _, apart =>
      have differ := ((List.pairwise_cons.mp apart).1 other List.mem_cons_self).1
      simp [outputPath, given] at differ
  rcases prepared.exec_run single ran with ⟨rfl, rfl⟩ | ⟨result', w₁, emitted, same, ends⟩
  · rw [List.zip_nil_right]
    exact .nil ..
  · rw [← List.map_snd_zip (Nat.le_of_eq length.symm)] at apart
    have spread := List.pairwise_map.mp apart
    rw [same]
    exact exec_emitAll spread emitted fun path failed => writable path (ends _ failed)

instance decidablePasses (locate : Locator) (files : List SourceFile) (r : Reporter) :
    ∀ rest, Decidable (Passes locate files r rest)
  | [] => inferInstanceAs (Decidable True)
  | file :: rest =>
    have := decidablePasses locate files (r.after (found file)) rest
    inferInstanceAs (Decidable (_ ∧ _))

/-- Three files: one uses an unknown name, one prints a number, and in one a name is missing. -/
def mixedWorld : World where
  store := ⟨[
    (["odd.json"],
      "[\"odd\",null,[[\"Print\",[\"Variable\",\"y\",[0,1]],[0,1]]],[0,1]]".toUTF8.toList),
    (["clean.json"],
      "[\"clean\",null,[[\"Print\",[\"Literal\",[\"Int\",7],[0,1]],[0,1]]],[0,1]]".toUTF8.toList),
    (["gap.json"],
      "[\"gap\",null,[[\"Print\",[\"Variable\",\"\",[0,0]],[0,0]]],[0,0]]".toUTF8.toList)]⟩

def cleanImage : List UInt8 := [0, 1, 0, 0, 0, 0, 7, 0, 0, 27, 0, 0, 26, 30]

def loadedFiles (inputs : List String) (w : World) : List SourceFile :=
  (exec (loadAll Host.store inputs) w).1.toOption.getD []

theorem loaded_of_isSome (loads : (exec (loadAll Host.store inputs) w).1.toOption.isSome = true) :
    (exec (loadAll Host.store inputs) w).1 = .ok (loadedFiles inputs w) := by
  unfold loadedFiles
  obtain ⟨files, read⟩ := ok_of_toOption_isSome loads
  rw [read]
  rfl

/-- Inputs on the command line are compiled as they are given. -/
theorem prepares_of_files (some_ : inputs ≠ [])
    (loads : (exec (loadAll Host.store inputs) w).1.toOption.isSome = true) :
    Prepares Location.of { files := inputs } w inputs (loadedFiles inputs w) {} := by
  refine ⟨rfl, ⟨{}, ?_, rfl⟩, loaded_of_isSome loads, rfl⟩
  cases inputs with
  | nil => exact absurd rfl some_
  | cons => rfl

/-- The image of the clean file is written although the command fails at the next one. -/
theorem mixed_images_written :
    ∃ w', exec (run Host.store { files := ["odd.json", "clean.json", "gap.json"] }) mixedWorld =
        (.error (.incomplete "gap" ⟨0, 0⟩), w') ∧
      w'.store.get? ["clean.sbc"] = some cleanImage := by
  have known :
      ((exec (loadAll Host.store ["odd.json", "clean.json", "gap.json"])
        mixedWorld).1.toOption.isSome = true ∧
      Passes Location.of (loadedFiles ["odd.json", "clean.json", "gap.json"] mixedWorld)
        { limit := none }
        ((loadedFiles ["odd.json", "clean.json", "gap.json"] mixedWorld).take 1)) ∧
      (loadedFiles ["odd.json", "clean.json", "gap.json"] mixedWorld).map
        (fun file => file.compile.toOption.map Machine.Image.encode) =
          [none, some cleanImage, none] ∧
      (exec (run Host.store { files := ["odd.json", "clean.json", "gap.json"] }) mixedWorld).1 =
        .error (.incomplete "gap" ⟨0, 0⟩) := by
    decide +kernel
  have place : Store.target? (outputPath "clean.json" none) = some ["clean.sbc"] := by
    decide +kernel
  obtain ⟨⟨loads, passed⟩, images, ended⟩ := known
  obtain ⟨_, delivers⟩ := images_written (prepares_of_files (List.cons_ne_nil _ _) loads)
    (by decide +kernel) (Prod.ext ended rfl) nofun
  refine ⟨_, Prod.ext ended rfl, ?_⟩
  generalize loadedFiles ["odd.json", "clean.json", "gap.json"] mixedWorld = files at *
  obtain ⟨odd, _, rfl, _, images⟩ := List.map_eq_cons_iff.mp images
  obtain ⟨clean, _, rfl, image, images⟩ := List.map_eq_cons_iff.mp images
  obtain ⟨gap, _, rfl, _, images⟩ := List.map_eq_cons_iff.mp images
  cases List.map_eq_nil_iff.mp images
  obtain ⟨image, compiled, encoded⟩ := ok_of_toOption_map image
  obtain ⟨place', leads, holds⟩ :=
    delivers.images [(odd, "odd.json")] clean "clean.json" [(gap, "gap.json")] image rfl passed
      compiled
  cases place.symm.trans leads
  rw [holds, encoded]

/-- In another order the command ends before it comes to the clean file. -/
theorem gap_withholds_image :
    ∃ files image w', Prepares Location.of { files := ["gap.json", "clean.json"] } mixedWorld
        ["gap.json", "clean.json"] files {} ∧
      (files.map SourceFile.compile)[1]? = some (.ok image) ∧
      Store.target? (outputPath "clean.json" none) = some ["clean.sbc"] ∧
      exec (run Host.store { files := ["gap.json", "clean.json"] }) mixedWorld =
        (.error (.incomplete "gap" ⟨0, 0⟩), w') ∧
      w'.store.get? ["clean.sbc"] = none := by
  have known :
      ((exec (loadAll Host.store ["gap.json", "clean.json"])
        mixedWorld).1.toOption.isSome = true ∧
      (loadedFiles ["gap.json", "clean.json"] mixedWorld).map
        (fun file => file.compile.toOption.map Machine.Image.encode) = [none, some cleanImage]) ∧
      (exec (run Host.store { files := ["gap.json", "clean.json"] }) mixedWorld).1 =
        .error (.incomplete "gap" ⟨0, 0⟩) ∧
      (exec (run Host.store { files := ["gap.json", "clean.json"] }) mixedWorld).2.store.get?
        ["clean.sbc"] = none := by
    decide +kernel
  obtain ⟨⟨loads, images⟩, ended, missing⟩ := known
  have prepared := prepares_of_files (List.cons_ne_nil _ _) loads
  generalize loadedFiles ["gap.json", "clean.json"] mixedWorld = files at *
  obtain ⟨gap, _, rfl, _, images⟩ := List.map_eq_cons_iff.mp images
  obtain ⟨clean, _, rfl, image, _⟩ := List.map_eq_cons_iff.mp images
  obtain ⟨image, compiled, _⟩ := ok_of_toOption_map image
  have place : Store.target? (outputPath "clean.json" none) = some ["clean.sbc"] := by
    decide +kernel
  cases ran : exec (run Host.store { files := ["gap.json", "clean.json"] }) mixedWorld with
  | mk _ w' =>
    rw [ran] at ended missing
    cases ended
    exact ⟨_, image, w', prepared, congrArg some compiled, place, rfl, missing⟩

end Bindery.Cli
