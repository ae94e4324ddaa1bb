import DebugGuard.Cli.Run
import DebugGuard.Proofs.Text.Literal
import Mathlib

/-!
# What is on a disk

The way of a path (`Path.way`) are the places it passes, whether there is something or not.  What is
read at a path depends on the entries on its way alone (`Files.read_congr`).

A file that is written changes one entry, which is no folder before and after (`Files.Evolves`).  So
a text that can be read stays, as long as no other text is put into its place
(`Files.Evolves.read`).
-/

namespace DebugGuard.Cli

/-! ### Ways -/

namespace Location

/-- The places that are passed from `loc` on, both ends included. -/
def visited (loc : Location) : List String → List Location
  | [] => [loc]
  | name :: rest => loc :: (loc.child name).visited rest

/-- Where names lead from `loc`. -/
def follow (loc : Location) (names : List String) : Location :=
  names.foldl child loc

@[simp] theorem follow_nil (loc : Location) : loc.follow [] = loc := rfl

@[simp] theorem follow_cons (loc : Location) (name : String) (names : List String) :
    loc.follow (name :: names) = (loc.child name).follow names := rfl

theorem follow_concat (loc : Location) (names : List String) (name : String) :
    loc.follow (names ++ [name]) = (loc.follow names).child name := by
  rw [follow, List.foldl_append]
  rfl

theorem visited_concat (loc : Location) (names : List String) (name : String) :
    loc.visited (names ++ [name]) = loc.visited names ++ [loc.follow (names ++ [name])] := by
  induction names generalizing loc with
  | nil => rfl
  | cons n names ih => rw [List.cons_append, visited, ih, visited, List.cons_append, follow_cons]

theorem follow_mem_visited (loc : Location) (names : List String) :
    loc.follow names ∈ loc.visited names := by
  induction names generalizing loc with
  | nil => exact List.mem_singleton_self loc
  | cons n names ih => exact List.mem_cons_of_mem _ (ih _)

theorem self_mem_visited (loc : Location) (names : List String) : loc ∈ loc.visited names := by
  cases names <;> exact List.mem_cons_self

end Location

namespace Path

theorem names_ne_nil (path : String) : names path ≠ [] := by
  rw [names, Ne, List.map_eq_nil_iff]
  exact List.splitOn_ne_nil '/' path.toList

theorem names_eq (path : String) :
    names path = (names path).dropLast ++ [(names path).getLastD ""] := by
  rw [List.getLastD_eq_getLast?, List.getLast?_eq_some_getLast (names_ne_nil path),
    Option.getD_some, List.dropLast_concat_getLast]

/-- The places that a path passes. -/
def way (path : String) : List Location :=
  match start path with
  | .error _ => []
  | .ok loc => loc.visited (names path)

/-- The place that a path leads to. -/
def place? (path : String) : Option Location :=
  (start path).toOption.map (·.follow (names path))

variable {path : String} {loc : Location}

theorem way_eq (h : start path = .ok loc) : way path = loc.visited (names path) := by
  rw [way, h]

theorem place?_eq (h : start path = .ok loc) : place? path = some (loc.follow (names path)) := by
  rw [place?, h]
  rfl

end Path

/-! ### Walking and reading -/

namespace Files

variable {fs gs : Files} {loc loc' : Location} {names : List String} {path content : String}

theorem find?_put (fs : Files) (loc : Location) (entry : Entry) (place : Location) :
    (fs.put loc entry).find? place =
      if place.names = [] then some .folder else if place = loc then some entry
      else fs.find? place := by
  rw [find?, find?, put, List.find?_cons]
  by_cases hnames : place.names = []
  · simp [hnames]
  by_cases hplace : place = loc
  · simp [hplace]
  · have hne : (loc == place) = false := by simpa using Ne.symm hplace
    rw [hne, List.find?_filter]
    simp only [hnames, hplace, if_false, List.isEmpty_iff]
    congr 2
    funext x
    by_cases hx : x.1 = place
    · simp [hx, hplace]
    · simp [hx]

theorem enter_eq_ok {name : String} : fs.enter loc name = .ok loc' ↔
    fs.find? loc = some .folder ∧ ¬Path.nameLimit < name.utf8ByteSize ∧ loc' = loc.child name := by
  rw [enter]
  split
  · next h => simp [h]
  · next h =>
    rw [not_not] at h
    split
    · next hlimit => simp [h, hlimit]
    · next hlimit => simp [h, hlimit, eq_comm]

theorem enter_congr (h : gs.find? loc = fs.find? loc) (name : String) :
    gs.enter loc name = fs.enter loc name := by
  rw [enter, enter, h]

theorem walk_cons_eq_ok {name : String} : fs.walk loc (name :: names) = .ok loc' ↔
    ∃ next, fs.enter loc name = .ok next ∧ (fs.find? next).isNone = false ∧
      fs.walk next names = .ok loc' := by
  rw [walk, bind_eq_ok]
  refine exists_congr fun next => and_congr_right fun _ => ?_
  cases (fs.find? next).isNone <;> simp

theorem follow_of_walk (h : fs.walk loc names = .ok loc') : loc' = loc.follow names := by
  induction names generalizing loc with
  | nil =>
    cases h
    rfl
  | cons name names ih =>
    obtain ⟨next, hnext, -, h⟩ := walk_cons_eq_ok.1 h
    obtain ⟨-, -, rfl⟩ := enter_eq_ok.1 hnext
    exact ih h

theorem walk_concat {name : String} : fs.walk loc (names ++ [name]) = .ok loc' ↔
    ∃ folder, fs.walk loc names = .ok folder ∧ fs.enter folder name = .ok loc' ∧
      (fs.find? loc').isNone = false := by
  induction names generalizing loc with
  | nil =>
    rw [List.nil_append, walk_cons_eq_ok]
    constructor
    · rintro ⟨next, hnext, hsome, h⟩
      cases h
      exact ⟨loc, rfl, hnext, hsome⟩
    · rintro ⟨folder, h, hnext, hsome⟩
      cases h
      exact ⟨loc', hnext, hsome, rfl⟩
  | cons n names ih =>
    simp only [List.cons_append, walk_cons_eq_ok, ih]
    constructor
    · rintro ⟨next, hnext, hsome, folder, h⟩
      exact ⟨folder, ⟨next, hnext, hsome, h.1⟩, h.2⟩
    · rintro ⟨folder, ⟨next, hnext, hsome, h⟩, h'⟩
      exact ⟨next, hnext, hsome, folder, h, h'⟩

/-- Only folders are passed on the way to a folder. -/
theorem folders_of_walk (h : fs.walk loc names = .ok loc')
    (hfolder : fs.find? loc' = some .folder) :
    ∀ place ∈ loc.visited names, fs.find? place = some .folder := by
  induction names generalizing loc with
  | nil =>
    cases h
    intro place hplace
    rw [List.mem_singleton.1 hplace, hfolder]
  | cons name names ih =>
    obtain ⟨next, hnext, -, h⟩ := walk_cons_eq_ok.1 h
    obtain ⟨hloc, -, rfl⟩ := enter_eq_ok.1 hnext
    intro place hplace
    rcases List.mem_cons.1 hplace with rfl | hplace
    · exact hloc
    · exact ih h place hplace

theorem walk_congr (h : ∀ place ∈ loc.visited names, gs.find? place = fs.find? place) :
    gs.walk loc names = fs.walk loc names := by
  induction names generalizing loc with
  | nil => rfl
  | cons name names ih =>
    rw [walk, walk, enter_congr (h loc List.mem_cons_self)]
    cases henter : fs.enter loc name with
    | error fault => rfl
    | ok next =>
      obtain ⟨-, -, rfl⟩ := enter_eq_ok.1 henter
      have hrest := fun place hplace => h place (List.mem_cons_of_mem _ hplace)
      simp only [bind, Except.bind]
      rw [hrest _ (Location.self_mem_visited ..), ih hrest]

/-- What is read depends on the entries on the way alone. -/
theorem read_congr (h : ∀ place ∈ Path.way path, gs.find? place = fs.find? place) :
    gs.read path = fs.read path := by
  rw [read, read]
  cases hstart : Path.start path with
  | error fault => rfl
  | ok start =>
    rw [Path.way_eq hstart] at h
    simp only [bind, Except.bind]
    rw [walk_congr h]
    cases hwalk : fs.walk start (Path.names path) with
    | error fault => rfl
    | ok loc =>
      obtain rfl := follow_of_walk hwalk
      dsimp only
      rw [h _ (Location.follow_mem_visited ..)]

theorem read_eq_ok : fs.read path = .ok content ↔ ∃ start, Path.start path = .ok start ∧
    ∃ loc, fs.walk start (Path.names path) = .ok loc ∧ fs.find? loc = some (.text content) := by
  rw [read, bind_eq_ok]
  refine exists_congr fun start => and_congr_right fun _ => ?_
  rw [bind_eq_ok]
  refine exists_congr fun loc => and_congr_right fun _ => ?_
  split
  · next h => simp [h, pure, Except.pure]
  all_goals next h => simp [h, throw, throwThe, MonadExceptOf.throw]

theorem find?_of_read (h : fs.read path = .ok content) :
    ∃ loc, Path.place? path = some loc ∧ fs.find? loc = some (.text content) := by
  obtain ⟨start, hstart, loc, hwalk, hentry⟩ := read_eq_ok.1 h
  exact ⟨loc, by rw [Path.place?_eq hstart, follow_of_walk hwalk], hentry⟩

/-- The folder that a readable file stands in, and the way to it. -/
theorem folders_of_read (h : fs.read path = .ok content) :
    ∃ start, Path.start path = .ok start ∧
      ∀ place ∈ start.visited (Path.names path).dropLast, fs.find? place = some .folder := by
  obtain ⟨start, hstart, loc, hwalk, -⟩ := read_eq_ok.1 h
  rw [Path.names_eq] at hwalk
  obtain ⟨folder, hwalk, henter, -⟩ := walk_concat.1 hwalk
  exact ⟨start, hstart, folders_of_walk hwalk (enter_eq_ok.1 henter).1⟩

theorem write_eq_ok : fs.write path content = .ok gs ↔ ∃ start, Path.start path = .ok start ∧
    ∃ folder, fs.walk start (Path.names path).dropLast = .ok folder ∧
      ∃ loc, fs.enter folder ((Path.names path).getLastD "") = .ok loc ∧
        fs.find? loc ≠ some .folder ∧ gs = fs.put loc (.text content) := by
  rw [write, store, bind_eq_ok]
  refine exists_congr fun start => and_congr_right fun _ => ?_
  rw [bind_eq_ok]
  refine exists_congr fun folder => and_congr_right fun _ => ?_
  rw [bind_eq_ok]
  refine exists_congr fun loc => and_congr_right fun _ => ?_
  by_cases hfolder : fs.find? loc = some .folder
  · simp [hfolder, throw, throwThe, MonadExceptOf.throw, bind, Except.bind]
  · simp [hfolder, pure, Except.pure, eq_comm]

/-! ### Changes -/

/-- The disk changes at some places at most, and the same places hold folders. -/
structure Evolves (changed : List Location) (fs gs : Files) : Prop where
  folder_iff : ∀ loc, gs.find? loc = some .folder ↔ fs.find? loc = some .folder
  frame : ∀ loc, loc ∉ changed → gs.find? loc = fs.find? loc

namespace Evolves

variable {hs : Files} {changed changed' : List Location}

theorem refl (fs : Files) : Evolves [] fs fs :=
  ⟨fun _ => Iff.rfl, fun _ _ => rfl⟩

theorem trans (h : Evolves changed fs gs) (h' : Evolves changed' gs hs) :
    Evolves (changed ++ changed') fs hs := by
  refine ⟨fun loc => (h'.folder_iff loc).trans (h.folder_iff loc), fun loc hloc => ?_⟩
  rw [List.mem_append, not_or] at hloc
  exact (h'.frame loc hloc.2).trans (h.frame loc hloc.1)

theorem read_eq (h : Evolves changed fs gs) (hway : ∀ loc ∈ Path.way path, loc ∉ changed) :
    gs.read path = fs.read path :=
  read_congr fun loc hloc => h.frame loc (hway loc hloc)

/-- A file that can be read stays as it is, unless it is changed itself: there are folders on the
way to it, and folders stay. -/
theorem read (h : Evolves changed fs gs) (hread : fs.read path = .ok content)
    (hplace : ∀ loc, Path.place? path = some loc → loc ∉ changed) :
    gs.read path = .ok content := by
  obtain ⟨start, hstart, hfolders⟩ := folders_of_read hread
  rw [read_congr fun loc hloc => ?_, hread]
  rw [Path.way_eq hstart, Path.names_eq, Location.visited_concat, ← Path.names_eq, List.mem_append,
    List.mem_singleton] at hloc
  rcases hloc with hloc | rfl
  · rw [(h.folder_iff loc).2 (hfolders loc hloc), hfolders loc hloc]
  · exact h.frame _ (hplace _ (Path.place?_eq hstart))

end Evolves

theorem evolves_put (h : fs.find? loc ≠ some .folder) :
    Evolves [loc] fs (fs.put loc (.text content)) := by
  have hnames : loc.names ≠ [] := fun hnil => h (by simp [find?, hnil])
  refine ⟨fun place => ?_, fun place hplace => ?_⟩
  · rw [find?_put]
    by_cases hplace : place = loc
    · subst hplace
      simp [hnames, h]
    · by_cases hnil : place.names = []
      · simp [find?, hnil]
      · rw [if_neg hnil, if_neg hplace]
  · rw [List.mem_singleton] at hplace
    rw [find?_put, if_neg hplace]
    by_cases hnil : place.names = []
    · simp [find?, hnil]
    · rw [if_neg hnil]

/-- A file that is written can be read. -/
theorem read_of_write (h : fs.write path content = .ok gs) : gs.read path = .ok content := by
  obtain ⟨start, hstart, folder, hwalk, loc, henter, hloc, rfl⟩ := write_eq_ok.1 h
  have hfolder := (enter_eq_ok.1 henter).1
  have hevolves : Evolves [loc] fs (fs.put loc (.text content)) := evolves_put hloc
  have hnames : loc.names ≠ [] := fun hnil => hloc (by simp [find?, hnil])
  have hentry : (fs.put loc (.text content)).find? loc = some (.text content) := by
    rw [find?_put, if_neg hnames, if_pos rfl]
  refine read_eq_ok.2 ⟨start, hstart, loc, ?_, hentry⟩
  rw [Path.names_eq]
  refine walk_concat.2 ⟨folder, ?_, ?_, by rw [hentry]; rfl⟩
  · rw [walk_congr fun place hplace => ?_, hwalk]
    have hplace := folders_of_walk hwalk hfolder place hplace
    rw [(hevolves.folder_iff place).2 hplace, hplace]
  · rw [enter_congr ((hevolves.folder_iff folder).2 hfolder |>.trans hfolder.symm), henter]

theorem evolves_of_write (h : fs.write path content = .ok gs) :
    ∃ loc, Path.place? path = some loc ∧ Evolves [loc] fs gs := by
  obtain ⟨start, hstart, folder, hwalk, loc, henter, hloc, rfl⟩ := write_eq_ok.1 h
  refine ⟨loc, ?_, evolves_put hloc⟩
  rw [Path.place?_eq hstart, Path.names_eq, Location.follow_concat, ← follow_of_walk hwalk,
    ← (enter_eq_ok.1 henter).2.2]

/-- Whether a file can be written depends on the folders alone: those on the way to it, and that it
is none itself. -/
theorem write_congr (hfolder : ∀ loc, gs.find? loc = some .folder ↔ fs.find? loc = some .folder)
    (hway : ∀ start, Path.start path = .ok start →
      ∀ place ∈ start.visited (Path.names path).dropLast, gs.find? place = fs.find? place) :
    (gs.write path content).map (fun _ => ()) = (fs.write path content).map (fun _ => ()) := by
  rw [write, write, store, store]
  cases hstart : Path.start path with
  | error fault => rfl
  | ok start =>
    simp only [bind, Except.bind]
    rw [walk_congr (hway start hstart)]
    cases hwalk : fs.walk start (Path.names path).dropLast with
    | error fault => rfl
    | ok folder =>
      obtain rfl := follow_of_walk hwalk
      dsimp only
      rw [enter_congr (hway start hstart _ (Location.follow_mem_visited ..))]
      cases fs.enter (start.follow (Path.names path).dropLast) ((Path.names path).getLastD "") with
      | error fault => rfl
      | ok loc =>
        dsimp only
        by_cases hloc : fs.find? loc = some .folder
        · rw [if_pos hloc, if_pos ((hfolder loc).2 hloc)]
          rfl
        · rw [if_neg hloc, if_neg (mt (hfolder loc).1 hloc)]
          rfl

/-! ### Folders that are made -/

theorem text_iff_of_makeFoldersFrom (h : fs.makeFoldersFrom loc names = .ok gs) (place : Location) :
    gs.find? place = some (.text content) ↔ fs.find? place = some (.text content) := by
  induction names generalizing fs loc with
  | nil =>
    cases h
    rfl
  | cons name names ih =>
    rw [makeFoldersFrom] at h
    obtain ⟨next, hnext, h⟩ := bind_eq_ok.1 h
    split at h
    · exact ih h
    · next hnone =>
      rw [ih h, find?_put]
      by_cases hnil : place.names = []
      · simp [find?, hnil]
      · by_cases hplace : place = next
        · subst hplace
          simp [hnil, hnone]
        · rw [if_neg hnil, if_neg hplace]
    · cases h

/-- Making a folder leaves all files as they are. -/
theorem text_iff_of_makeFolder (h : fs.makeFolder path = .ok gs) (place : Location) :
    gs.find? place = some (.text content) ↔ fs.find? place = some (.text content) := by
  rw [makeFolder] at h
  split at h
  · cases h
    rfl
  obtain ⟨start, -, h⟩ := bind_eq_ok.1 h
  obtain ⟨fs', hfs', h⟩ := bind_eq_ok.1 h
  obtain ⟨folder, -, h⟩ := bind_eq_ok.1 h
  exact (text_iff_of_makeFoldersFrom h place).trans (text_iff_of_makeFoldersFrom hfs' place)

end Files

end DebugGuard.Cli
