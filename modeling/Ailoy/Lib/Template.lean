import Mathlib.Data.List.Basic

/-!
# Templates

A template is a text with placeholders `${name}`, with blanks allowed around the name. `pieces` reads
it from the left as the search for a regular expression does, `render` puts the value of each
placeholder in its place, and `keys` are the names. A placeholder without a value is left as its
name in braces.
-/

namespace Template

/-- A character of a template, or a placeholder. -/
inductive Piece
  | char (c : Char)
  | placeholder (key : String)

section Reading

variable (isSpace : Char → Bool)

/-- The placeholder that a text starts with, and the number of its characters. -/
def placeholderAt : List Char → Option (String × ℕ)
  | '$' :: '{' :: cs =>
    let inner := cs.dropWhile isSpace
    let isKey := fun c => c != '}' && !isSpace c
    let key := inner.takeWhile isKey
    match (inner.dropWhile isKey).dropWhile isSpace with
    | '}' :: rest => if key = [] then none else some (String.ofList key, cs.length + 2 - rest.length)
    | _ => none
  | _ => none

/-- The pieces of what is left, without the first `skip` characters. -/
def scan : ℕ → List Char → List Piece
  | _, [] => []
  | skip + 1, _ :: cs => scan skip cs
  | 0, c :: cs =>
    match placeholderAt isSpace (c :: cs) with
    | some (key, n) => .placeholder key :: scan (n - 1) cs
    | none => .char c :: scan 0 cs

/-- The pieces of a template. -/
def pieces (template : List Char) : List Piece := scan isSpace 0 template

end Reading

/-- The name of a placeholder. -/
def Piece.key? : Piece → Option String
  | .char _ => none
  | .placeholder key => some key

/-- The names of the placeholders. -/
def keys (ps : List Piece) : List String := ps.filterMap Piece.key?

section Rendering

variable (value : String → Option (List Char))

/-- What a piece is rendered as. -/
def Piece.render : Piece → List Char
  | .char c => [c]
  | .placeholder key => (value key).getD ('{' :: (key.toList ++ ['}']))

/-- The rendered template. -/
def render (ps : List Piece) : List Char := ps.flatMap (Piece.render value)

end Rendering

/-- A name is one of a placeholder that stands somewhere. -/
theorem mem_keys_iff {ps : List Piece} {key : String} :
    key ∈ keys ps ↔ ∃ pre post, ps = pre ++ .placeholder key :: post := by
  rw [keys, List.mem_filterMap]
  constructor
  · rintro ⟨p, hp, hkey⟩
    cases p with
    | char c => cases hkey
    | placeholder key' =>
      cases hkey
      exact List.append_of_mem hp
  · rintro ⟨pre, post, rfl⟩
    exact ⟨.placeholder key, by simp, rfl⟩

/-- A placeholder with a value is rendered as that value, where it stands. -/
theorem render_split {value : String → Option (List Char)} {key : String} {text : List Char}
    (h : value key = some text) (pre post : List Piece) :
    render value (pre ++ .placeholder key :: post) =
      render value pre ++ text ++ render value post := by
  simp [render, Piece.render, h]

end Template
