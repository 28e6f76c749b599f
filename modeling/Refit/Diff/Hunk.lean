import Refit.Diff.Edit

namespace Refit.Diff

/-- Where a run stands on both sides, and its length on the side it belongs to. -/
structure Run where
  old : Nat
  new : Nat
  len : Nat
  deriving DecidableEq, Repr

/-- Kept lines, or everything removed and added between two runs of kept lines. -/
inductive Block where
  | keep (run : Run)
  | change (removed added : Option Run)
  deriving DecidableEq, Repr

namespace Block

def oldStart : Block → Nat
  | keep r => r.old
  | change (some r) _ => r.old
  | change none (some a) => a.old
  | change none none => 0

def oldLen : Block → Nat
  | keep r => r.len
  | change removed _ => (removed.map Run.len).getD 0

def newStart : Block → Nat
  | keep r => r.new
  | change _ (some a) => a.new
  | change (some r) none => r.new
  | change none none => 0

def newLen : Block → Nat
  | keep r => r.len
  | change _ added => (added.map Run.len).getD 0

end Block

def Run.extend (r : Run) : Option Run → Run
  | none => r
  | some next => { r with len := r.len + next.len }

def Edit.run (e : Edit) : Run := ⟨e.old, e.new, if e.kind = .insert then e.newLen else e.oldLen⟩

def Edit.joinBlocks (e : Edit) (blocks : List Block) : List Block :=
  match e.kind, blocks with
  | .keep, .keep r :: rest => .keep (e.run.extend (some r)) :: rest
  | .keep, _ => .keep e.run :: blocks
  | .remove, .change removed added :: rest => .change (some (e.run.extend removed)) added :: rest
  | .remove, _ => .change (some e.run) none :: blocks
  | .insert, .change removed added :: rest => .change removed (some (e.run.extend added)) :: rest
  | .insert, _ => .change none (some e.run) :: blocks

def blocks (edits : List Edit) : List Block := edits.foldr Edit.joinBlocks []

def radius : Nat := 3

def Run.takeLast (r : Run) (n : Nat) : Run :=
  let skip := r.len - n
  ⟨r.old + skip, r.new + skip, r.len - skip⟩

def Run.takeFirst (r : Run) (n : Nat) : Run := { r with len := r.len - (r.len - n) }

def trimFirst : List Block → List Block
  | .keep r :: rest => .keep (r.takeLast radius) :: rest
  | blocks => blocks

def trimLast : List Block → List Block
  | [] => []
  | [.keep r] => [.keep (r.takeFirst radius)]
  | block :: rest => block :: trimLast rest

def closeHunk : List Block → List (List Block)
  | [] => []
  | [.keep _] => []
  | hunk => [hunk]

/-- Cuts the blocks wherever more lines are kept than two changes can share as context. -/
def cutHunks (hunk : List Block) : List Block → List (List Block)
  | [] => closeHunk hunk
  | .keep r :: rest =>
    if 2 * radius < r.len then
      (hunk ++ [.keep (r.takeFirst radius)]) :: cutHunks [.keep (r.takeLast radius)] rest
    else cutHunks (hunk ++ [.keep r]) rest
  | block :: rest => cutHunks (hunk ++ [block]) rest

def hunks (blocks : List Block) : List (List Block) :=
  cutHunks [] (trimLast (trimFirst blocks))

end Refit.Diff
