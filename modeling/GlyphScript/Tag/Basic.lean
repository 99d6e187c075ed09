import GlyphScript.Entries

/-! # Tags

A hashtag `#name` gives the node it stands on a further name. A reference `@a::b` points at another
node. The segments of a tag are names, or hashtags of their own.
-/

namespace GlyphScript

inductive TagKind where
  | hashtag
  | reference
  deriving DecidableEq, Repr

mutual

structure Tag (S : Type) where
  root : S
  kind : TagKind
  segments : List (Segment S)
  /-- How the tag was written, once it is linked. -/
  written : Option String := none
  /-- The name that the tag is looked up by, once it is linked. -/
  target : Option String := none
  /-- The address that the tag points at, negative for nowhere. -/
  address : Int := -1

inductive Segment (S : Type) where
  | name (s : S)
  | nested (tag : Tag S)

end

/-- Names may be written with a leading `@` or `#`, which is not part of the name. -/
def plainName (name : String) : String :=
  match name.toList with
  | '@' :: cs => String.ofList cs
  | '#' :: cs => String.ofList cs
  | _ => name

namespace TagKind

def mark : TagKind → String
  | hashtag => "#"
  | reference => "@"

end TagKind

variable {S T : Type}

namespace Segment

/-- A nested tag is looked up by its root. -/
def label : Segment S → S
  | name s => s
  | nested tag => tag.root

end Segment

namespace Tag

def ofPath (kind : TagKind) (path : List String) : Tag String :=
  { root := path.headD "", kind, segments := path.map .name }

def hashtag (root : String) : Tag String := ofPath .hashtag [root]

/-- The bare names of the segments, or of the root if there are none. -/
def path (tag : Tag String) : List String :=
  match tag.segments with
  | [] => [plainName tag.root]
  | segments => segments.map fun s => plainName s.label

def display (tag : Tag String) : String := tag.kind.mark ++ "::".intercalate tag.path

def isResolved (tag : Tag S) : Bool := 0 ≤ tag.address

def isReference (tag : Tag S) : Bool := tag.kind = .reference

def isHashtag (tag : Tag S) : Bool := tag.kind = .hashtag

section Replace

variable {m : Type → Type} [Monad m]

mutual

/-- Replaces the root and then the names in the segments, from left to right. -/
def mapTextM (f : S → m T) : Tag S → m (Tag T)
  | ⟨root, kind, segments, written, target, address⟩ => do
    let root ← f root
    let segments ← mapSegmentsM f segments
    return ⟨root, kind, segments, written, target, address⟩

def mapSegmentM (f : S → m T) : Segment S → m (Segment T)
  | .name s => do
    let t ← f s
    return .name t
  | .nested tag => do
    let tag ← mapTextM f tag
    return .nested tag

def mapSegmentsM (f : S → m T) : List (Segment S) → m (List (Segment T))
  | [] => pure []
  | s :: rest => do
    let s ← mapSegmentM f s
    let rest ← mapSegmentsM f rest
    return s :: rest

end

/-- Replaces the texts of several tags in order. -/
def mapTagsM (f : S → m T) : List (Tag S) → m (List (Tag T))
  | [] => pure []
  | tag :: tags => do
    let tag ← mapTextM f tag
    let tags ← mapTagsM f tags
    return tag :: tags

end Replace

mutual

def same [BEq S] : Tag S → Tag S → Bool
  | ⟨root, kind, segments, written, target, address⟩,
      ⟨root', kind', segments', written', target', address'⟩ =>
    root == root' && kind == kind' && sameSegments segments segments' && written == written'
      && target == target' && address == address'

def sameSegment [BEq S] : Segment S → Segment S → Bool
  | .name s, .name t => s == t
  | .nested a, .nested b => same a b
  | _, _ => false

def sameSegments [BEq S] : List (Segment S) → List (Segment S) → Bool
  | [], [] => true
  | a :: as, b :: bs => sameSegment a b && sameSegments as bs
  | _, _ => false

end

end Tag

end GlyphScript
