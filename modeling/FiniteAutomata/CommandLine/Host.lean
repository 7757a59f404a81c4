import FiniteAutomata.Definition.Read

/-!
# The host of a call

A `Host` is what a call of the program finds: standard input, the files of the system, and the
directory in which the program was started. It is a value, so the outcome of a call can be computed
and reasoned about without a system.

A `FileTree` says what is found under each name. A path of parts between slashes is followed from
one place to the next, and either leads to a text or fails at the first part that cannot be
followed.

The program reads a file of the working directory by its name, whatever else the system has
(`Host.automaton_ofFiles`), and standard input under the names that the system gives it
(`Host.automaton_ofFiles_input`).
-/

namespace FiniteAutomata.CommandLine

/-! ## Files -/

/-- A file with its text, a directory with the names in it, or a link to the place that some names
lead to from the root. -/
inductive FileTree where
  | file (text : String)
  | directory (entries : List (String × FileTree))
  | link (target : List String)

/-- A place in a tree: what is there, and the directories that contain it, from the innermost
on. -/
structure Place where
  tree : FileTree
  above : List FileTree

namespace Place

/-- The place of an entry of a directory. -/
def entry? (p : Place) (name : String) : Option Place :=
  match p.tree with
  | .directory entries => (entries.lookup name).map fun tree => ⟨tree, p.tree :: p.above⟩
  | _ => none

theorem entry?_directory {entries : List (String × FileTree)} {above : List FileTree}
    {name : String} : entry? ⟨.directory entries, above⟩ name =
      (entries.lookup name).map fun tree => ⟨tree, .directory entries :: above⟩ := rfl

/-- The directory above, which at the root is the root. -/
def parent (p : Place) : Place :=
  match p.above with
  | [] => p
  | tree :: above => ⟨tree, above⟩

end Place

namespace FileTree

/-- The directory of some files. -/
def ofFiles (files : List (String × String)) : FileTree :=
  directory (files.map fun (name, text) => (name, file text))

/-- The size in bytes that a part of a path must not exceed. -/
def partLimit : Nat := 255

/-- The size in bytes that a path must not exceed. -/
def pathLimit : Nat := 4095

/-- The place that a place stands for, which is another one at a link. -/
def resolve? (root : FileTree) (p : Place) : Option Place :=
  match p.tree with
  | link target => target.foldlM Place.entry? ⟨root, []⟩
  | _ => some p

/-- What the parts of a path lead to from a place. -/
def follow (root : FileTree) (p : Place) : List String → Except ReadFault FileTree
  | [] => .ok p.tree
  | part :: parts =>
    match p.tree with
    | directory _ =>
      if part = "" ∨ part = "." then follow root p parts
      else if part = ".." then follow root p.parent parts
      else if partLimit < part.utf8ByteSize then .error .nameTooLong
      else match (p.entry? part).bind root.resolve? with
        | none => .error .noSuchFile
        | some next => follow root next parts
    | _ => .error .notDirectory

/-- The parts of a path from the root on. A path that does not start with a slash starts at the
working directory. -/
def partsOfPath (working : List String) (path : String) : List String :=
  match Text.splitAt '/' path with
  | "" :: parts => parts
  | parts => working ++ parts

/-- The text of the file that a path names. -/
def read (root : FileTree) (working : List String) (path : String) : Except ReadFault String :=
  if path = "" then .error .noSuchFile
  else if pathLimit < path.utf8ByteSize then .error .nameTooLong
  else match root.follow ⟨root, []⟩ (partsOfPath working path) with
    | .ok (file text) => .ok text
    | .ok _ => .error .isDirectory
    | .error fault => .error fault

/-- A part of a path that stands for an entry of a directory. -/
structure IsEntryName (name : String) : Prop where
  ne_empty : name ≠ ""
  ne_dot : name ≠ "."
  ne_dots : name ≠ ".."
  slash_not_mem : '/' ∉ name.toList
  size_le : name.utf8ByteSize ≤ partLimit

namespace IsEntryName

variable {name : String} (h : IsEntryName name)
include h

/-- Such a part leads to the entry. -/
theorem follow_cons {root : FileTree} {entries : List (String × FileTree)} {above : List FileTree}
    {parts : List String} : follow root ⟨directory entries, above⟩ (name :: parts) =
      match (Place.entry? ⟨directory entries, above⟩ name).bind root.resolve? with
      | none => .error .noSuchFile
      | some next => follow root next parts := by
  rw [follow, if_neg (not_or.2 ⟨h.ne_empty, h.ne_dot⟩), if_neg h.ne_dots,
    if_neg (Nat.not_lt.2 h.size_le)]

theorem partsOfPath_eq (working : List String) : partsOfPath working name = working ++ [name] := by
  have hsplit : Text.splitAt '/' name = [name] := by
    rw [Text.splitAt, List.splitOn_eq_singleton h.slash_not_mem, List.map_singleton,
      String.ofList_toList]
  rw [partsOfPath, hsplit]
  split
  · next heq => exact absurd (List.cons.inj heq).1 h.ne_empty
  · rfl

end IsEntryName

end FileTree

/-! ## Hosts -/

/-- The text of standard input, the tree of all files, and the names that lead from the root to the
working directory. -/
structure Host where
  input : String
  root : FileTree
  working : List String

namespace Host

variable {input name path : String} {files : List (String × String)}
  {entries : List (String × FileTree)}

/-- A tree behind directories with one entry each. -/
def below (names : List String) (tree : FileTree) : FileTree :=
  names.foldr (fun name tree => .directory [(name, tree)]) tree

/-- An empty file, and standard input under its names. Open files are kept with the process, and
the devices have a link there. -/
def devices (input : String) : List (String × FileTree) :=
  [("dev", .directory
      [("null", .file ""), ("stdin", .file input), ("fd", .link ["proc", "self", "fd"])]),
    ("proc", below ["self", "fd", "0"] (.file input))]

/-- The host whose working directory, below that for temporary files, holds some files. -/
def ofFiles (input : String) (files : List (String × String)) : Host where
  input := input
  root := .directory (("tmp", below ["automata", "call"] (.ofFiles files)) :: devices input)
  working := ["tmp", "automata", "call"]

/-- The host with further entries in its root. -/
def beside (h : Host) (entries : List (String × FileTree)) : Host :=
  match h.root with
  | .directory own => { h with root := .directory (own ++ entries) }
  | _ => h

/-- The automaton in a file, or in standard input. -/
def automaton (h : Host) : Option String → Except InputError Nfa
  | none => Nfa.ofText h.input
  | some path =>
    match h.root.read h.working path with
    | .ok text => Nfa.ofText text
    | .error fault => .error (.unreadable fault)

theorem lookup_map_file : (files.map fun (name, text) => (name, FileTree.file text)).lookup name =
    (files.lookup name).map FileTree.file := by
  induction files with
  | nil => rfl
  | cons file files ih =>
    rw [List.map_cons, List.lookup_cons, List.lookup_cons]
    cases name == file.1 with
    | true => rfl
    | false => exact ih

theorem read_ofFiles (h : FileTree.IsEntryName name) :
    ((ofFiles input files).beside entries).root.read ["tmp", "automata", "call"] name =
      match files.lookup name with
      | some text => .ok text
      | none => .error .noSuchFile := by
  have hlimit : ¬ FileTree.pathLimit < name.utf8ByteSize :=
    Nat.not_lt.2 (Nat.le_trans h.size_le (by decide))
  -- the directories above the working directory have fixed names
  have hworking (root : FileTree) (hroot : root = ((ofFiles input files).beside entries).root) :
      root.follow ⟨root, []⟩ ["tmp", "automata", "call", name] =
        root.follow ⟨.ofFiles files, [.directory [("call", .ofFiles files)],
          below ["automata", "call"] (.ofFiles files), root]⟩ [name] := by
    subst hroot
    rfl
  rw [FileTree.read, if_neg h.ne_empty, if_neg hlimit, h.partsOfPath_eq, List.cons_append,
    List.cons_append, List.cons_append, List.nil_append, hworking _ rfl, FileTree.ofFiles,
    h.follow_cons, Place.entry?_directory, lookup_map_file]
  cases files.lookup name with
  | none => rfl
  | some text => rfl

/-- A file of the working directory is read under its name. -/
theorem automaton_ofFiles (h : FileTree.IsEntryName name) :
    ((ofFiles input files).beside entries).automaton (some name) =
      match files.lookup name with
      | some text => Nfa.ofText text
      | none => .error (.unreadable .noSuchFile) := by
  have hworking : ((ofFiles input files).beside entries).working = ["tmp", "automata", "call"] :=
    rfl
  rw [automaton, hworking, read_ofFiles h]
  cases files.lookup name with
  | none => rfl
  | some text => rfl

/-- Standard input is a file with the same text under each of its names. -/
theorem automaton_ofFiles_input (h : path ∈ ["/dev/stdin", "/dev/fd/0", "/proc/self/fd/0"]) :
    ((ofFiles input files).beside entries).automaton (some path) =
      ((ofFiles input files).beside entries).automaton none := by
  simp only [List.mem_cons, List.not_mem_nil, or_false] at h
  rcases h with rfl | rfl | rfl
  · rfl
  · rfl
  · rfl

end Host

end FiniteAutomata.CommandLine
