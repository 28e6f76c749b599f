namespace Refit

/-- A path as written: whether it starts with a slash, and what stands between the slashes. -/
structure Path where
  rooted : Bool
  segments : List String
  deriving DecidableEq, Repr

namespace Path

def splitSlashes : List Char → List (List Char)
  | [] => [[]]
  | '/' :: rest => [] :: splitSlashes rest
  | c :: rest =>
    match splitSlashes rest with
    | [] => [[c]]
    | segment :: more => (c :: segment) :: more

def ofText (s : String) : Path :=
  match s.toList with
  | '/' :: rest => ⟨true, (splitSlashes rest).map String.ofList⟩
  | cs => ⟨false, (splitSlashes cs).map String.ofList⟩

def joinSlashes : List String → List Char
  | [] => []
  | [s] => s.toList
  | s :: rest => s.toList ++ '/' :: joinSlashes rest

def text (p : Path) : String :=
  String.ofList ((if p.rooted then ['/'] else []) ++ joinSlashes p.segments)

def isFiller (segment : String) : Bool := segment == "" || segment == "."

def names (p : Path) : List String := p.segments.filter fun s => !isFiller s

/-- Takes the fillers off a list of segments given from the last to the first. A path that starts
with `.` keeps it. -/
def dropFillers (rooted : Bool) : List String → List String
  | [] => []
  | s :: rest =>
    if s = "" ∨ (s = "." ∧ (rooted ∨ rest ≠ [])) then dropFillers rooted rest else s :: rest

def parent? (p : Path) : Option Path :=
  match dropFillers p.rooted p.segments.reverse with
  | [] => none
  | _ :: rest => some { p with segments := (dropFillers p.rooted rest).reverse }

def fileName? (p : Path) : Option String :=
  match p.names.getLast? with
  | some ".." | none => none
  | some name => some name

/-- How a file is called in messages: by its last name, or by the whole path if there is none. -/
def label (p : Path) : String := p.fileName?.getD p.text

def afterNames : List String → List String → Option (List String)
  | [], segments => some segments
  | _ :: _, [] => none
  | name :: names, s :: segments =>
    if isFiller s then afterNames (name :: names) segments
    else if s = name then afterNames names segments
    else none

/-- What follows a base, as written, without the fillers at both ends. -/
def stripPrefix? (base p : Path) : Option Path :=
  if base.rooted ≠ p.rooted then none
  else
    (afterNames base.names p.segments).map fun rest =>
      let rest := rest.dropWhile isFiller
      ⟨false, (dropFillers true rest.reverse).reverse⟩

end Path

/-- Appends a path text to another; a text that starts with a slash replaces it. -/
def joinPath (base rest : String) : String :=
  if rest.toList.head? = some '/' then rest
  else if base = "" ∨ base.toList.getLast? = some '/' then base ++ rest
  else base ++ "/" ++ rest

/-- The name before the last dot and the text after it. A name that only starts with a dot has no
extension. -/
def splitExtension (name : List Char) : Option (List Char × List Char) :=
  match name.reverse.span (· ≠ '.') with
  | (_, []) => none
  | (extension, _ :: stem) => if stem = [] then none else some (stem.reverse, extension.reverse)

namespace Path

def extension? (p : Path) : Option String :=
  p.fileName?.bind fun name => (splitExtension name.toList).map fun parts => String.ofList parts.2

theorem splitSlashes_ne_nil (cs : List Char) : splitSlashes cs ≠ [] := by
  fun_cases splitSlashes cs <;> simp_all

theorem joinSlashes_cons (s : String) {rest : List String} (h : rest ≠ []) :
    joinSlashes (s :: rest) = s.toList ++ '/' :: joinSlashes rest := by
  cases rest with
  | nil => exact absurd rfl h
  | cons => rfl

theorem joinSlashes_splitSlashes (cs : List Char) :
    joinSlashes ((splitSlashes cs).map String.ofList) = cs := by
  fun_induction splitSlashes cs with
  | case1 => simp [joinSlashes]
  | case2 rest ih =>
    have h : (splitSlashes rest).map String.ofList ≠ [] := by simp [splitSlashes_ne_nil]
    simp [joinSlashes_cons _ h, ih]
  | case3 c rest _ h => exact absurd h (splitSlashes_ne_nil rest)
  | case4 c rest _ s more h ih =>
    rw [h] at ih
    cases more <;> simp_all [joinSlashes]

theorem text_ofText (s : String) : (ofText s).text = s := by
  unfold ofText text
  split
  · simp_all [joinSlashes_splitSlashes]
    simp [← String.toList_inj, *]
  · simp [joinSlashes_splitSlashes]

end Path

end Refit
