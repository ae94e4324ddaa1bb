import DebugGuard.Proofs.Cli.Run

/-!
# What a run prints

Without a folder nothing is written, so each file is read from the disk that the run starts with.
The printout is that of the files that have one (`printout?`), in the order of the arguments, and
the other files are the failures (`Accounts`).

Main statement: `printing_accounts`.  Files that fail have no influence on the printout, nor on the
number of files that are transformed.
-/

namespace DebugGuard.Cli

variable {settings : Settings} {fs : Files} {path : String} {files : List String}

/-- The text that is printed for a file, if it can be read and transformed. -/
def printout? (settings : Settings) (fs : Files) (path : String) : Option String :=
  (fs.read path).toOption.bind fun source => (transform settings source).toOption

/-- The failure says why there is no printout, and has the text of a file that can be read. -/
def Failure.IsDue (settings : Settings) (fs : Files) (failure : Failure) : Prop :=
  match fs.read failure.path with
  | .error fault => failure.source = none ∧ failure.cause = .unreadable fault
  | .ok source => failure.source = some source ∧
      ∃ e, transform settings source = .error e ∧ failure.cause = .transform e

/-! ### One file -/

/-- A file that is not written is printed or fails, and the disk stays as it is. -/
theorem printFile_cases (settings : Settings) (fs : Files) (path : String) :
    ∃ o, runFile Files.disk settings none path fs = (o, fs) ∧
      ((∃ text, printout? settings fs path = some text ∧ o = .printed text) ∨
        ∃ failure, printout? settings fs path = none ∧ o = .failed failure ∧ failure.path = path ∧
          failure.IsDue settings fs) := by
  rw [runFile, bind_apply, Files.disk_read, printout?]
  cases hread : fs.read path with
  | error fault =>
    exact ⟨_, rfl, .inr ⟨_, rfl, rfl, rfl, by simp [Failure.IsDue, hread]⟩⟩
  | ok source =>
    simp only [Except.toOption, Option.bind_some]
    cases htext : transform settings source with
    | error e => exact ⟨_, rfl, .inr ⟨_, rfl, rfl, rfl, by simp [Failure.IsDue, hread, htext]⟩⟩
    | ok text => exact ⟨_, rfl, .inl ⟨text, rfl, rfl⟩⟩

/-! ### Reports -/

section

variable {m : Type → Type} [Monad m] [LawfulMonad m]

/-- Noting one more outcome gives the totals of one more outcome. -/
theorem Totals.note_totals (os : List Outcome) (o : Outcome) :
    (Report.totals ⟨os⟩).note o = Report.totals ⟨os ++ [o]⟩ := by
  cases o <;> simp [note, Report.totals, Report.stdout, Report.written, Report.transformed,
    Report.failures]

/-- A run that takes notes along the way ends with the totals of all outcomes. -/
theorem noteFiles_totals (disk : Disk m) (settings : Settings) (outDir : Option String)
    (files : List String) (os : List Outcome) :
    noteFiles disk settings outDir files (Report.totals ⟨os⟩) =
      return Report.totals ⟨os ++ (← files.mapM (runFile disk settings outDir))⟩ := by
  induction files generalizing os with
  | nil => simp [noteFiles]
  | cons path files ih =>
    unfold noteFiles at ih ⊢
    simp only [List.foldlM_cons, List.mapM_cons, bind_assoc, pure_bind, Totals.note_totals, ih,
      List.append_assoc, List.singleton_append]

end

namespace Report

variable {os : List Outcome} {text : String} {failure : Failure}

@[simp] theorem stdout_printed : stdout ⟨.printed text :: os⟩ = text ++ stdout ⟨os⟩ := by
  simp [stdout, String.join_cons]

@[simp] theorem stdout_failed : stdout ⟨.failed failure :: os⟩ = stdout ⟨os⟩ := rfl

@[simp] theorem failures_printed : failures ⟨.printed text :: os⟩ = failures ⟨os⟩ := rfl

@[simp] theorem failures_failed : failures ⟨.failed failure :: os⟩ = failure :: failures ⟨os⟩ := rfl

@[simp] theorem transformed_printed : transformed ⟨.printed text :: os⟩ = transformed ⟨os⟩ + 1 := by
  simp [transformed]

@[simp] theorem transformed_failed : transformed ⟨.failed failure :: os⟩ = transformed ⟨os⟩ := by
  simp [transformed]

end Report

/-- A run prints the printouts of the files that have one, and reports all others. -/
structure Accounts (settings : Settings) (fs : Files) (files : List String) (r : Report) :
    Prop where
  stdout : r.stdout = String.join (files.filterMap (printout? settings fs))
  transformed : r.transformed = files.countP fun path => (printout? settings fs path).isSome
  failures : r.failures.map (·.path) = files.filter fun path => (printout? settings fs path).isNone
  due : ∀ failure ∈ r.failures, failure.IsDue settings fs
  total : r.transformed + r.failures.length = files.length

namespace Accounts

variable {os : List Outcome} {text : String} {failure : Failure}

theorem nil (settings : Settings) (fs : Files) : Accounts settings fs [] ⟨[]⟩ :=
  ⟨rfl, rfl, rfl, fun _ h => absurd h List.not_mem_nil, rfl⟩

theorem printed (h : Accounts settings fs files ⟨os⟩)
    (hprint : printout? settings fs path = some text) :
    Accounts settings fs (path :: files) ⟨.printed text :: os⟩ where
  stdout := by simp [hprint, h.stdout, String.join_cons]
  transformed := by simp [hprint, h.transformed]
  failures := by simp [hprint, h.failures]
  due := h.due
  total := by
    have := h.total
    simp only [Report.transformed_printed, Report.failures_printed, List.length_cons]
    omega

theorem failed (h : Accounts settings fs files ⟨os⟩)
    (hprint : printout? settings fs failure.path = none) (hdue : failure.IsDue settings fs) :
    Accounts settings fs (failure.path :: files) ⟨.failed failure :: os⟩ where
  stdout := by simp [hprint, h.stdout]
  transformed := by simp [hprint, h.transformed]
  failures := by simp [hprint, h.failures]
  due f hf := by
    rcases List.mem_cons.1 hf with rfl | hf
    · exact hdue
    · exact h.due f hf
  total := by
    have := h.total
    simp only [Report.transformed_failed, Report.failures_failed, List.length_cons]
    omega

end Accounts

/-! ### All files -/

theorem filterMap_filter_isSome {α β : Type} (f : α → Option β) (xs : List α) :
    (xs.filter fun x => (f x).isSome).filterMap f = xs.filterMap f := by
  rw [List.filterMap_filter]
  congr 1
  funext x
  cases f x <;> rfl

theorem accounts_mapM (settings : Settings) (fs : Files) (files : List String) :
    ∃ os, files.mapM (runFile Files.disk settings none) fs = (os, fs) ∧
      Accounts settings fs files ⟨os⟩ := by
  induction files with
  | nil => exact ⟨[], rfl, .nil settings fs⟩
  | cons path files ih =>
    obtain ⟨os, hos, haccounts⟩ := ih
    obtain ⟨o, ho, hcases⟩ := printFile_cases settings fs path
    refine ⟨o :: os, ?_, ?_⟩
    · rw [List.mapM_cons, bind_apply, bind_apply, pure_apply, ho, hos]
    rcases hcases with ⟨text, hprint, rfl⟩ | ⟨failure, hprint, rfl, rfl, hdue⟩
    · exact haccounts.printed hprint
    · exact haccounts.failed hprint hdue

theorem printing_apply {os : List Outcome}
    (h : files.mapM (runFile Files.disk settings none) fs = (os, fs)) :
    runFiles Files.disk settings none files fs = (.ok ⟨os⟩, fs) := by
  rw [runFiles, pure_bind]
  dsimp only
  rw [bind_apply, h]
  rfl

/-- Without a folder a run always comes to a report, and leaves the disk as it is.  It prints the
printouts of the files that have one, in their order, and reports all others.  Another list of files
in which the same ones have a printout gives the same printout.  The totals that are kept along the
way are those of the report. -/
theorem printing_accounts (settings : Settings) (fs : Files) (files : List String) :
    ∃ r, runFiles Files.disk settings none files fs = (.ok r, fs) ∧ Accounts settings fs files r ∧
      noteFiles Files.disk settings none files {} fs = (r.totals, fs) ∧
      ∀ files', files'.filter (fun path => (printout? settings fs path).isSome) =
          files.filter (fun path => (printout? settings fs path).isSome) →
        ∃ r', runFiles Files.disk settings none files' fs = (.ok r', fs) ∧
          r'.stdout = r.stdout ∧ r'.transformed = r.transformed := by
  obtain ⟨os, hos, h⟩ := accounts_mapM settings fs files
  have hnotes : noteFiles Files.disk settings none files {} fs = (Report.totals ⟨os⟩, fs) := by
    have hnone : ({} : Totals) = Report.totals ⟨[]⟩ := rfl
    rw [hnone, noteFiles_totals, bind_apply, hos]
    rfl
  refine ⟨⟨os⟩, printing_apply hos, h, hnotes, fun files' hfiles => ?_⟩
  obtain ⟨os', hos', h'⟩ := accounts_mapM settings fs files'
  refine ⟨⟨os'⟩, printing_apply hos', ?_, ?_⟩
  · rw [h'.stdout, h.stdout, ← filterMap_filter_isSome _ files', hfiles, filterMap_filter_isSome]
  · rw [h'.transformed, h.transformed, List.countP_eq_length_filter, List.countP_eq_length_filter,
      hfiles]

end DebugGuard.Cli
