import DebugGuard.Proofs.Cli.Files
import DebugGuard.Proofs.Expand.Finish

/-!
# Files that a run writes

A run writes into one folder, under the last name of each path.  A part of a run changes the places
of the files it writes and no others, and makes or removes no folder (`Leaves`).  So it has no
influence on whether the next file can be written, and has one on its text only by writing to a
place on its way.

Main statement: `outcome_apart`.  Its conditions cannot be left out: of two files with the same name
only the last one is kept (`same_name_keeps_last`), and a file that is written can be read as a
later argument (`output_read_back`).
-/

namespace DebugGuard.Cli

/-! ### File names in a folder -/

theorem not_mem_of_mem_splitOn {c : Char} {cs l : List Char} (h : l ∈ cs.splitOn c) : c ∉ l := by
  induction cs generalizing l with
  | nil =>
    rw [List.splitOn_nil, List.mem_singleton] at h
    simp [h]
  | cons d cs ih =>
    rw [List.splitOn_cons_eq_if_modifyHead] at h
    split at h
    · rcases List.mem_cons.1 h with rfl | h
      · exact List.not_mem_nil
      · exact ih h
    · next hd =>
      obtain ⟨l', rest, hsplit⟩ := List.exists_cons_of_ne_nil (List.splitOn_ne_nil c cs)
      rw [hsplit, List.modifyHead_cons] at h
      rcases List.mem_cons.1 h with rfl | h
      · rw [List.mem_cons, not_or]
        exact ⟨fun heq => hd (by simp [heq]), ih (by simp [hsplit])⟩
      · exact ih (by rw [hsplit]; exact List.mem_cons_of_mem _ h)

/-- A name that leads from a folder to something in it. -/
structure IsName (name : String) : Prop where
  ne_empty : name ≠ ""
  ne_dot : name ≠ "."
  ne_dots : name ≠ ".."
  no_slash : '/' ∉ name.toList

theorem isName_of_fileName? {path name : String} (h : fileName? path = some name) :
    IsName name := by
  obtain ⟨hlast, hdots⟩ := Option.filter_eq_some_iff.1 h
  have hmem := List.mem_of_getLast? hlast
  rw [Path.steps, List.mem_filter] at hmem
  obtain ⟨hmem, hstep⟩ := hmem
  obtain ⟨cs, hcs, rfl⟩ := List.mem_map.1 hmem
  simp only [bne_iff_ne, ne_eq, Bool.and_eq_true] at hdots hstep
  exact ⟨hstep.1, hstep.2, hdots, by simpa using not_mem_of_mem_splitOn hcs⟩

theorem IsName.child {name : String} (h : IsName name) (loc : Location) :
    loc.child name = { loc with names := loc.names ++ [name] } := by
  simp [Location.child, h.ne_empty, h.ne_dot, h.ne_dots]

theorem IsName.child_inj {name name' : String} (h : IsName name) (h' : IsName name')
    {loc : Location} (heq : loc.child name = loc.child name') : name = name' := by
  rw [h.child, h'.child] at heq
  simpa using heq

namespace Path

/-- Where a path into a folder starts. -/
def base (folder : String) : Location :=
  ⟨if folder.toList.head? = some '/' then .root else .above 0, []⟩

/-- The names in front of the last one in a path into a folder. -/
def folderNames (folder : String) : List String :=
  if folder.isEmpty then []
  else if folder.toList.getLast? = some '/' then (names folder).dropLast
  else names folder

theorem names_of_no_slash {name : String} (h : '/' ∉ name.toList) : names name = [name] := by
  rw [names, List.splitOn_eq_singleton h, List.map_singleton, String.ofList_toList]

theorem names_append {path : String} {cs : List Char} (h : path.toList = cs ++ ['/'])
    {name : String} (hname : '/' ∉ name.toList) :
    names (path ++ name) = names (String.ofList cs) ++ [name] := by
  have hsplit : (path ++ name).toList = cs ++ '/' :: name.toList := by
    rw [String.toList_append, h, List.append_assoc]
    rfl
  rw [names, hsplit, List.splitOn_append_cons_self, List.map_append, ← names,
    names_of_no_slash hname, names, String.toList_ofList]

theorem names_join (folder : String) {name : String} (h : IsName name) :
    names (join folder name) = folderNames folder ++ [name] := by
  rw [join, folderNames]
  by_cases hempty : folder.isEmpty
  · have hnil : folder = "" := String.isEmpty_iff.1 hempty
    simp [hnil, names_of_no_slash h.no_slash]
  by_cases hslash : folder.toList.getLast? = some '/'
  · obtain ⟨cs, hcs⟩ := List.getLast?_eq_some_iff.1 hslash
    have hfolder : names folder = names (String.ofList cs) ++ [""] := by
      have hnone : '/' ∉ "".toList := by simp
      have := names_append hcs hnone
      rwa [String.append_empty] at this
    simp [hempty, hslash, names_append hcs h.no_slash, hfolder]
  · have hjoined : (folder ++ "/").toList = folder.toList ++ ['/'] := by simp
    simp [hempty, hslash, names_append hjoined h.no_slash]

theorem head?_join (folder : String) {name : String} (h : IsName name) :
    (join folder name).toList.head? = some '/' ↔ folder.toList.head? = some '/' := by
  rw [join]
  by_cases hempty : folder.isEmpty
  · have hnil : folder = "" := String.isEmpty_iff.1 hempty
    simp only [hnil]
    have hname : name.toList.head? ≠ some '/' := fun hhead => h.no_slash (List.mem_of_head? hhead)
    simp [hname]
  · have hne : folder.toList ≠ [] := fun hnil => hempty (by
      rw [String.isEmpty_iff]
      exact String.toList_eq_nil_iff.1 hnil)
    obtain ⟨c, cs, hcs⟩ := List.exists_cons_of_ne_nil hne
    split <;> simp [hcs]

theorem base_of_start (folder : String) {name : String} (h : IsName name) {loc : Location}
    (hstart : start (join folder name) = .ok loc) : loc = base folder := by
  rw [start] at hstart
  split at hstart
  · cases hstart
  split at hstart
  · cases hstart
  split at hstart
  · cases hstart
  cases hstart
  rw [base]
  simp only [head?_join folder h]

/-- A file in a folder is in its place under its name. -/
theorem place?_join (folder : String) {name : String} (h : IsName name) {loc : Location}
    (hloc : place? (join folder name) = some loc) :
    loc = ((base folder).follow (folderNames folder)).child name := by
  cases hstart : start (join folder name) with
  | error fault => simp [place?, hstart, Except.toOption] at hloc
  | ok first =>
    rw [place?_eq hstart, names_join folder h, Location.follow_concat,
      base_of_start folder h hstart] at hloc
    exact (Option.some.inj hloc).symm

end Path

/-! ### One file -/

namespace Files

@[simp] theorem disk_read (path : String) (fs : Files) :
    disk.read path fs = (fs.read path, fs) := rfl

end Files

variable {settings : Settings} {folder path : String} {fs gs : Files} {o : Outcome}

@[simp] theorem bind_apply {σ α β : Type} (x : StateM σ α) (f : α → StateM σ β) (s : σ) :
    (x >>= f) s = f (x s).1 (x s).2 := rfl

@[simp] theorem pure_apply {σ α : Type} (a : α) (s : σ) : (pure a : StateM σ α) s = (a, s) := rfl

theorem mapM_append_apply {σ α β : Type} (f : α → StateM σ β) (xs ys : List α) (s : σ) :
    (xs ++ ys).mapM f s =
      ((xs.mapM f s).1 ++ (ys.mapM f (xs.mapM f s).2).1, (ys.mapM f (xs.mapM f s).2).2) := by
  rw [List.mapM_append]
  rfl

theorem runFile_apply (settings : Settings) (folder path : String) (fs : Files) :
    runFile Files.disk settings (some folder) path fs =
      match fs.read path with
      | .error fault => (.failed ⟨path, none, .unreadable fault⟩, fs)
      | .ok source =>
        match transform settings source with
        | .error e => (.failed ⟨path, some source, .transform e⟩, fs)
        | .ok text =>
          match fileName? path with
          | none => (.failed ⟨path, some source, .nameless path⟩, fs)
          | some name =>
            match fs.write (join folder name) text with
            | .error fault =>
              (.failed ⟨path, some source, .unwritable (join folder name) fault⟩, fs)
            | .ok gs => (.written (join folder name), gs) := by
  rw [runFile, bind_apply, Files.disk_read]
  cases fs.read path with
  | error fault => rfl
  | ok source =>
    dsimp only
    cases transform settings source with
    | error e => rfl
    | ok text =>
      dsimp only
      rw [bind_apply, deliver]
      cases fileName? path with
      | none => rfl
      | some name =>
        dsimp only
        rw [bind_apply]
        have hwrite : Files.disk.write (join folder name) text fs =
          Files.change (·.write (join folder name) text) fs := rfl
        rw [hwrite, Files.change]
        cases fs.write (join folder name) text <;> rfl

/-- The file is transformed, and written into the folder under its name. -/
structure Delivers (settings : Settings) (folder path : String) (fs gs : Files) (target : String) :
    Prop where
  exists_content : ∃ source text, fs.read path = .ok source ∧
    transform settings source = .ok text ∧ fs.write target text = .ok gs
  exists_name : ∃ name, fileName? path = some name ∧ target = join folder name

theorem runFile_cases (h : runFile Files.disk settings (some folder) path fs = (o, gs)) :
    (∃ failure, o = .failed failure ∧ gs = fs) ∨
      ∃ target, o = .written target ∧ Delivers settings folder path fs gs target := by
  rw [runFile_apply] at h
  split at h
  · cases h
    exact .inl ⟨_, rfl, rfl⟩
  next source hsource =>
  split at h
  · cases h
    exact .inl ⟨_, rfl, rfl⟩
  next text htext =>
  split at h
  · cases h
    exact .inl ⟨_, rfl, rfl⟩
  next name hname =>
  split at h
  · cases h
    exact .inl ⟨_, rfl, rfl⟩
  next gs' hwrite =>
  cases h
  exact .inr ⟨_, rfl, ⟨source, text, hsource, htext, hwrite⟩, name, hname, rfl⟩

/-- What comes of a file depends on its text, and on whether it can be written. -/
theorem runFile_congr (hread : gs.read path = fs.read path)
    (hwrite : ∀ name text, fileName? path = some name →
      (gs.write (join folder name) text).map (fun _ => ()) =
        (fs.write (join folder name) text).map (fun _ => ())) :
    (runFile Files.disk settings (some folder) path gs).1 =
      (runFile Files.disk settings (some folder) path fs).1 := by
  rw [runFile_apply, runFile_apply, hread]
  cases fs.read path with
  | error fault => rfl
  | ok source =>
    dsimp only
    cases transform settings source with
    | error e => rfl
    | ok text =>
      dsimp only
      cases hname : fileName? path with
      | none => rfl
      | some name =>
        dsimp only
        have hwrite := hwrite name text hname
        cases hgs : gs.write (join folder name) text with
        | error fault =>
          cases hfs : fs.write (join folder name) text with
          | error fault' =>
            rw [hgs, hfs] at hwrite
            cases hwrite
            rfl
          | ok fs' =>
            rw [hgs, hfs] at hwrite
            cases hwrite
        | ok gs' =>
          cases hfs : fs.write (join folder name) text with
          | error fault' =>
            rw [hgs, hfs] at hwrite
            cases hwrite
          | ok fs' => rfl

/-! ### Several files -/

/-- The places of the files that are written. -/
def places (outcomes : List Outcome) : List Location :=
  outcomes.filterMap fun
    | .written target => Path.place? target
    | _ => none

theorem mem_places {outcomes : List Outcome} {loc : Location} :
    loc ∈ places outcomes ↔
      ∃ target, .written target ∈ outcomes ∧ Path.place? target = some loc := by
  rw [places, List.mem_filterMap]
  constructor
  · rintro ⟨o, ho, hloc⟩
    cases o with
    | written target => exact ⟨target, ho, hloc⟩
    | printed text => cases hloc
    | failed failure => cases hloc
  · rintro ⟨target, htarget, hloc⟩
    exact ⟨_, htarget, hloc⟩

theorem places_append (first rest : List Outcome) :
    places (first ++ rest) = places first ++ places rest :=
  List.filterMap_append

/-- What a part of a run leaves on the disk. -/
structure Leaves (folder : String) (outcomes : List Outcome) (fs gs : Files) : Prop where
  evolves : Files.Evolves (places outcomes) fs gs
  targets : ∀ target, .written target ∈ outcomes → ∃ name, IsName name ∧ target = join folder name
  /-- Nothing is written if the folder is not there. -/
  folders : ∀ target, .written target ∈ outcomes →
    ∀ place ∈ (Path.base folder).visited (Path.folderNames folder), fs.find? place = some .folder

namespace Leaves

variable {hs : Files} {first rest : List Outcome}

theorem nil (folder : String) (fs : Files) : Leaves folder [] fs fs :=
  ⟨.refl fs, fun _ h => absurd h List.not_mem_nil, fun _ h => absurd h List.not_mem_nil⟩

theorem append (h : Leaves folder first fs gs) (h' : Leaves folder rest gs hs) :
    Leaves folder (first ++ rest) fs hs := by
  refine ⟨?_, fun target ht => ?_, fun target ht place hplace => ?_⟩
  · rw [places_append]
    exact h.evolves.trans h'.evolves
  · rcases List.mem_append.1 ht with ht | ht
    · exact h.targets target ht
    · exact h'.targets target ht
  · rcases List.mem_append.1 ht with ht | ht
    · exact h.folders target ht place hplace
    · exact (h.evolves.folder_iff place).1 (h'.folders target ht place hplace)

/-- A part of a run has no influence on whether the next file can be written. -/
theorem write_eq (h : Leaves folder first fs gs) {name : String} (hname : IsName name)
    (text : String) : (gs.write (join folder name) text).map (fun _ => ()) =
      (fs.write (join folder name) text).map (fun _ => ()) := by
  refine Files.write_congr h.evolves.folder_iff fun start hstart place hplace => ?_
  rw [Path.base_of_start folder hname hstart, Path.names_join folder hname, List.dropLast_concat]
    at hplace
  by_cases hmem : place ∈ places first
  · obtain ⟨target, htarget, -⟩ := mem_places.1 hmem
    have hfolder := h.folders target htarget place hplace
    rw [(h.evolves.folder_iff place).2 hfolder, hfolder]
  · exact h.evolves.frame place hmem

/-- Files with different names are written to different places. -/
theorem not_mem_places (h : Leaves folder first fs gs) {name : String} (hname : IsName name)
    (hnot : .written (join folder name) ∉ first) {loc : Location}
    (hloc : Path.place? (join folder name) = some loc) : loc ∉ places first := by
  intro hmem
  obtain ⟨target, htarget, hloc'⟩ := mem_places.1 hmem
  obtain ⟨name', hname', rfl⟩ := h.targets target htarget
  obtain rfl := hname.child_inj hname'
    ((Path.place?_join folder hname hloc).symm.trans (Path.place?_join folder hname' hloc'))
  exact hnot htarget

end Leaves

theorem leaves_runFile (h : runFile Files.disk settings (some folder) path fs = (o, gs)) :
    Leaves folder [o] fs gs := by
  rcases runFile_cases h with ⟨failure, rfl, rfl⟩ |
    ⟨target, rfl, ⟨source, text, -, -, hwrite⟩, name, hname, rfl⟩
  · exact ⟨.refl gs, fun _ h => by simp at h, fun _ h => by simp at h⟩
  · have hproper := isName_of_fileName? hname
    obtain ⟨loc, hloc, hevolves⟩ := Files.evolves_of_write hwrite
    refine ⟨?_, fun target ht => ?_, fun target ht place hplace => ?_⟩
    · simpa [places, hloc] using hevolves
    · simp only [List.mem_singleton, Outcome.written.injEq] at ht
      exact ⟨name, hproper, ht⟩
    · obtain ⟨start, hstart, way, hwalk, loc', henter, -⟩ := Files.write_eq_ok.1 hwrite
      rw [Path.names_join folder hproper, List.dropLast_concat] at hwalk
      rw [← Path.base_of_start folder hproper hstart] at hplace
      exact Files.folders_of_walk hwalk (Files.enter_eq_ok.1 henter).1 place hplace

theorem leaves_mapM {files : List String} {outcomes : List Outcome}
    (h : files.mapM (runFile Files.disk settings (some folder)) fs = (outcomes, gs)) :
    Leaves folder outcomes fs gs ∧ outcomes.length = files.length := by
  induction files generalizing fs outcomes with
  | nil =>
    cases h
    exact ⟨.nil folder _, rfl⟩
  | cons path files ih =>
    cases hfirst : runFile Files.disk settings (some folder) path fs with
    | mk o fs₁ =>
      cases hrest : files.mapM (runFile Files.disk settings (some folder)) fs₁ with
      | mk os fs₂ =>
        rw [List.mapM_cons, bind_apply, bind_apply, pure_apply, hfirst, hrest] at h
        cases h
        obtain ⟨hleaves, hlength⟩ := ih hrest
        exact ⟨(leaves_runFile hfirst).append hleaves, congrArg (· + 1) hlength⟩

theorem runFiles_eq_ok {files : List String} {r : Report} :
    runFiles Files.disk settings (some folder) files fs = (.ok r, gs) ↔
      ∃ hs, fs.makeFolder folder = .ok hs ∧
        files.mapM (runFile Files.disk settings (some folder)) hs = (r.outcomes, gs) := by
  have hmake : Files.disk.makeFolder folder fs = Files.change (·.makeFolder folder) fs := rfl
  rw [runFiles, bind_apply, hmake, Files.change]
  cases fs.makeFolder folder with
  | error fault =>
    simp only [pure_apply, reduceCtorEq, false_and, exists_false, iff_false]
    exact fun h => by cases h
  | ok hs =>
    obtain ⟨outcomes⟩ := r
    dsimp only
    rw [bind_apply, pure_apply]
    simp only [Except.ok.injEq, exists_eq_left']
    constructor
    · intro h
      cases h
      rfl
    · intro h
      rw [h]

/-- A file whose way no earlier file of the run is put on has the outcome that it has alone.  If it
is written, then its text is transformed from what stood in its place before the run, and stays,
unless a later file of the run is written to the same path. -/
theorem outcome_apart {before after : List String} {r : Report}
    (hrun : runFiles Files.disk settings (some folder) (before ++ path :: after) fs = (.ok r, gs)) :
    ∃ first o rest, r.outcomes = first ++ o :: rest ∧ first.length = before.length ∧
      ((∀ loc ∈ places first, loc ∉ Path.way path) →
        (runFiles Files.disk settings (some folder) [path] fs).1 = .ok ⟨[o]⟩ ∧
          ∀ target, o = .written target → .written target ∉ rest →
            ∃ name loc source text, fileName? path = some name ∧ target = join folder name ∧
              Path.place? path = some loc ∧ fs.find? loc = some (.text source) ∧
                transform settings source = .ok text ∧ gs.read target = .ok text) := by
  obtain ⟨fs₁, hmake, hrun⟩ := runFiles_eq_ok.1 hrun
  cases hfirst : before.mapM (runFile Files.disk settings (some folder)) fs₁ with
  | mk first fs₂ =>
  cases ho : runFile Files.disk settings (some folder) path fs₂ with
  | mk o fs₃ =>
  cases hrest : after.mapM (runFile Files.disk settings (some folder)) fs₃ with
  | mk rest fs₄ =>
  rw [mapM_append_apply, hfirst, List.mapM_cons, bind_apply, bind_apply, pure_apply, ho, hrest,
    Prod.mk.injEq] at hrun
  obtain ⟨houtcomes, rfl⟩ := hrun
  obtain ⟨hbefore, hlength⟩ := leaves_mapM hfirst
  obtain ⟨hafter, -⟩ := leaves_mapM hrest
  refine ⟨first, o, rest, houtcomes.symm, hlength, fun hclear => ⟨?_, ?_⟩⟩
  · have halone : (runFile Files.disk settings (some folder) path fs₁).1 = o := by
      rw [← runFile_congr (hbefore.evolves.read_eq fun loc hloc hmem => hclear loc hmem hloc)
        fun name text hname => hbefore.write_eq (isName_of_fileName? hname) text, ho]
    have hone : [path].mapM (runFile Files.disk settings (some folder)) fs₁ =
        ([o], (runFile Files.disk settings (some folder) path fs₁).2) := by
      rw [List.mapM_cons, bind_apply, bind_apply, pure_apply, halone]
      rfl
    rw [(runFiles_eq_ok (r := ⟨[o]⟩)).2 ⟨fs₁, hmake, hone⟩]
  · rintro target rfl hlast
    obtain ⟨failure, h, -⟩ | ⟨target', htarget, hdelivers⟩ := runFile_cases ho
    · cases h
    cases htarget
    obtain ⟨source, text, hsource, htext, hwrite⟩ := hdelivers.exists_content
    obtain ⟨name, hname, rfl⟩ := hdelivers.exists_name
    rw [hbefore.evolves.read_eq fun loc hloc hmem => hclear loc hmem hloc] at hsource
    obtain ⟨loc, hloc, hentry⟩ := Files.find?_of_read hsource
    refine ⟨name, loc, source, text, hname, rfl, hloc,
      (Files.text_iff_of_makeFolder hmake loc).1 hentry, htext, ?_⟩
    exact hafter.evolves.read (Files.read_of_write hwrite) fun place hplace =>
      hafter.not_mem_places (isName_of_fileName? hname) hlast hplace

/-- A disk with two files of one name. -/
def Files.namesakes : Files :=
  (empty.withFile "a/x.js" (.text "first();")).withFile "b/x.js" (.text "second();")

/-- Both files count as written, and only the text made of the last one is there. -/
theorem same_name_keeps_last : ∃ gs,
    runFiles Files.disk .standard (some "out") (["a/x.js"] ++ "b/x.js" :: []) Files.namesakes =
      (.ok ⟨[.written "out/x.js", .written "out/x.js"]⟩, gs) ∧
    transform .standard "first();" = .ok "first();\n" ∧
      gs.read "out/x.js" = .ok "second();\n" := by
  have hreport : (runFiles Files.disk .standard (some "out") (["a/x.js"] ++ "b/x.js" :: [])
      Files.namesakes).1 = .ok ⟨[.written "out/x.js", .written "out/x.js"]⟩ := by
    decide +kernel
  have hrun := Prod.ext (y := (_, _)) hreport rfl
  refine ⟨_, hrun, by decide +kernel, ?_⟩
  obtain ⟨first, o, rest, houtcomes, hlength, h⟩ := outcome_apart hrun
  obtain ⟨o₁, rfl⟩ := List.length_eq_one_iff.1 hlength
  cases houtcomes
  obtain ⟨-, h⟩ := h (by decide +kernel)
  obtain ⟨name, loc, source, text, -, -, hloc, hentry, htext, hread⟩ :=
    h _ rfl List.not_mem_nil
  have hplace : Path.place? "b/x.js" = some ⟨.above 0, ["b", "x.js"]⟩ := by decide +kernel
  obtain rfl := Option.some.inj (hplace.symm.trans hloc)
  have hsource : Files.namesakes.find? ⟨.above 0, ["b", "x.js"]⟩ = some (.text "second();") := by
    decide +kernel
  cases hsource.symm.trans hentry
  have hsecond : transform .standard "second();" = .ok "second();\n" := by decide +kernel
  cases hsecond.symm.trans htext
  exact hread

/-- A file that is missing fails alone, but not behind one that is written to its path. -/
theorem output_read_back :
    (runFiles Files.disk .standard (some "out") ["out/x.js"] Files.namesakes).1 =
        .ok ⟨[.failed ⟨"out/x.js", none, .unreadable .missing⟩]⟩ ∧
      (runFiles Files.disk .standard (some "out") ["a/x.js", "out/x.js"] Files.namesakes).1 =
        .ok ⟨[.written "out/x.js", .written "out/x.js"]⟩ := by
  decide +kernel

end DebugGuard.Cli
