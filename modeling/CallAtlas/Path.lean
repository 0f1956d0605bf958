import CallAtlas.Bytes

/-! # Paths

A path is a text of names with slashes between them. It is absolute if it starts with a slash.
These functions look at the text alone.
-/
namespace CallAtlas.Path

def isAbsolute (p : Bytes) : Bool := p.head? == some ('/' : UInt8)

def endsWithSlash (p : Bytes) : Bool := p.getLast? == some ('/' : UInt8)

def names (p : Bytes) : List Bytes := (Bytes.fields '/' p).filter (!·.isEmpty)

/-- The path over some names, from the root if it is absolute. -/
def ofNames (absolute : Bool) (names : List Bytes) : Bytes :=
  (if absolute then text "/" else []) ++ Bytes.join '/' names

def fileName (p : Bytes) : Bytes := (Bytes.fields '/' p).getLastD []

/-- The last dot of a file name with what follows it. A name has no extension if its only dot is
in front, or if it is `.` or `..`. -/
def extension (p : Bytes) : Bytes :=
  let name := fileName p
  if name = text ".." then []
  else
    match (Bytes.fields '.' name).getLast?, (Bytes.fields '.' name).dropLast with
    | _, [] | _, [[]] | none, _ => []
    | some last, _ => '.' :: last

/-- The path without its last name, or without the slashes at its end. -/
def parent (p : Bytes) : Bytes :=
  if (names p).isEmpty then p
  else
    let slash (b : UInt8) : Bool := b = '/'
    let above := ((p.reverse.dropWhile (!slash ·)).dropWhile slash).reverse
    if above.isEmpty && isAbsolute p then text "/" else above

def join (p q : Bytes) : Bytes :=
  if p.isEmpty || isAbsolute q then q
  else if endsWithSlash p then p ++ q
  else p ++ text "/" ++ q

end CallAtlas.Path
