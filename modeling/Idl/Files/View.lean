import Idl.Files.Tree

/-!
# Views of files

What an analysis sees of the files of a system.  Nothing is said about how a path is followed, so
that several paths, and several directories, may lead to one file.
-/

namespace Idl

structure FileView where
  /-- The one name of the node that a path leads to. -/
  resolve : String → Except FileFault FileName
  readName : FileName → Except FileFault String
  /-- The paths of the files below a directory in the order of names, up to the first fault. -/
  list : String → List String × Option FileFault
  /-- The names under which there may be a file. -/
  names : List FileName
  mem_names : ∀ {name text}, readName name = .ok text → name ∈ names

namespace FileTree

theorem mem_nodes_of_readName {tree : FileTree} {name : FileName} {text : String}
    (h : tree.readName name = .ok text) : name ∈ tree.nodes.map (·.1) := by
  have hnode : ∃ node, tree.node? name = some node ∧ node ≠ .directory := by
    unfold readName bytesOf at h
    cases hn : tree.node? name with
    | none => simp [hn, bind, Except.bind] at h
    | some node =>
      refine ⟨node, rfl, fun hdir => ?_⟩
      simp [hn, hdir, bind, Except.bind] at h
  obtain ⟨node, hnode, hdir⟩ := hnode
  unfold node? at hnode
  split at hnode
  · exact absurd (Option.some.inj hnode).symm hdir
  · exact List.mem_map_of_mem (Assoc.mem_of_lookup_eq_some hnode)

def view (tree : FileTree) : FileView where
  resolve := tree.resolve
  readName := tree.readName
  list path :=
    match tree.list path with
    | .error fault => ([], some fault)
    | .ok paths => (paths, none)
  names := tree.nodes.map (·.1)
  mem_names := mem_nodes_of_readName

instance : Coe FileTree FileView := ⟨view⟩

end FileTree

end Idl
