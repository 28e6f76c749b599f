namespace Refit.Text

def cut (word : List Char) : List Char → Option (List Char × List Char)
  | [] => if word = [] then some ([], []) else none
  | c :: rest =>
    if word.isPrefixOf (c :: rest) then some ([], c :: rest)
    else (cut word rest).map fun (before, found) => (c :: before, found)

def occurs (word cs : List Char) : Bool := (cut word cs).isSome

def splitMarks (mark : Char) : List Char → List (List Char)
  | [] => [[]]
  | c :: rest =>
    if c = mark then [] :: splitMarks mark rest
    else
      match splitMarks mark rest with
      | [] => [[c]]
      | part :: more => (c :: part) :: more

/-- The first `skip` characters belong to an occurrence that has been replaced already. -/
def replaceFrom (word new : List Char) : Nat → List Char → List Char
  | _, [] => []
  | skip + 1, _ :: rest => replaceFrom word new skip rest
  | 0, c :: rest =>
    if word.isPrefixOf (c :: rest) then new ++ replaceFrom word new (word.length - 1) rest
    else c :: replaceFrom word new 0 rest

/-- Replaces every occurrence of a word. An empty word occurs nowhere. -/
def replaceAll (word new cs : List Char) : List Char :=
  if word = [] then cs else replaceFrom word new 0 cs

def replaceFirst (word new cs : List Char) : List Char :=
  match cut word cs with
  | none => cs
  | some (before, found) => before ++ new ++ found.drop word.length

theorem cut_append {word cs before found : List Char} (h : cut word cs = some (before, found)) :
    before ++ found = cs := by
  induction cs generalizing before with
  | nil =>
    simp only [cut] at h
    split at h <;> simp_all
  | cons c rest ih =>
    simp only [cut] at h
    split at h
    · simp_all
    · simp only [Option.map_eq_some_iff, Prod.exists, Prod.mk.injEq] at h
      obtain ⟨b, f, hc, rfl, rfl⟩ := h
      simp [ih hc]

theorem isPrefixOf_of_cut {word cs before found : List Char}
    (h : cut word cs = some (before, found)) : word <+: found := by
  induction cs generalizing before with
  | nil =>
    simp only [cut] at h
    split at h <;> simp_all
  | cons c rest ih =>
    simp only [cut] at h
    split at h
    · simp_all
    · simp only [Option.map_eq_some_iff, Prod.exists, Prod.mk.injEq] at h
      obtain ⟨b, f, hc, rfl, rfl⟩ := h
      exact ih hc

end Refit.Text
