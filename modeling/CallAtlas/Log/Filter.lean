import CallAtlas.Log.Level
import CallAtlas.Table

/-! # Which entries are kept

A filter gives the least level for each tag it lists and one for all other tags. It is written as
`extract=trace,parse=debug,*=warn`, where a tag without a level keeps everything.

A gate is a filter together with a least level for all tags, which turns entries away before the
filter is asked.
-/
namespace CallAtlas.Log

structure Filter where
  default : Level := .info
  tags : Table Level := []

namespace Filter

/-- Takes up one item of a written filter. -/
def addItem (f : Filter) (item : Bytes) : Filter :=
  match Bytes.cut '=' item with
  | (tag, some level) =>
    if tag = text "*" then { f with default := Level.parse level }
    else { f with tags := f.tags.insert tag (Level.parse level) }
  | (tag, none) => if tag.isEmpty then f else { f with tags := f.tags.insert tag .trace }

/-- Replaces the tags by those of a written filter. The level of other tags stays unless the filter
names it. -/
def parse (f : Filter) (spec : Bytes) : Filter :=
  (Bytes.fields ',' spec).foldl addItem { f with tags := [] }

/-- The least level that is kept for a tag. -/
def threshold (f : Filter) (tag : Bytes) : Level := (f.tags.find? tag).getD f.default

def accepts (f : Filter) (level : Level) (tag : Bytes) : Bool := level.reaches (f.threshold tag)

/-- The lesser of two levels. -/
def lower (a b : Level) : Level := if a.rank < b.rank then a else b

/-- The least level that is kept for any tag. -/
def minLevel (f : Filter) : Level := f.tags.foldl (fun least entry => lower entry.2 least) f.default

end Filter

structure Gate where
  level : Level := .warn
  filter : Filter := { default := .warn }

namespace Gate

/-- A gate for a level and a written filter, which may be empty. -/
def make (level : Level) (spec : Bytes) : Gate :=
  if spec.isEmpty then { level, filter := { default := level } }
  else
    let filter := Filter.parse { default := level } spec
    { level := filter.minLevel, filter }

/-- Sets the level of all tags that the filter does not list. -/
def setLevel (g : Gate) (level : Level) : Gate :=
  { level, filter := { g.filter with default := level } }

def setFilter (g : Gate) (spec : Bytes) : Gate :=
  let filter := g.filter.parse spec
  { level := filter.minLevel, filter }

def accepts (g : Gate) (level : Level) (tag : Bytes) : Bool :=
  level.reaches g.level && g.filter.accepts level tag

def admits (g : Gate) (e : Entry) : Bool := g.accepts e.level e.tag

end Gate
end CallAtlas.Log
