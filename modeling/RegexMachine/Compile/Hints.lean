import RegexMachine.Analysis.Measure
import RegexMachine.Program.Basic

/-!
Hints: what every match begins with. A place that a hint rules out begins no match.
-/
namespace RegexMachine
open Unicode (Fold)

/-- Whether a node is an anchor or empty. -/
def Node.isZeroWidth : Node Measured → Bool
  | .atom _ .empty => true
  | .atom _ (.anchor _) => true
  | .atom _ .keep => true
  | .look _ _ _ => true
  | _ => false

/-- Whether a group passes on what its body begins with. -/
def Grouping.isTransparent : Grouping → Bool
  | .absent => false
  | _ => true

namespace Hints

def anchorHint : Anchor → FlagSet StartAnchor
  | .beginBuffer => FlagSet.ofList [.beginBuffer]
  | .beginPosition => FlagSet.ofList [.beginPosition]
  | .beginLine => FlagSet.ofList [.beginLine]
  | _ => FlagSet.empty

mutual

/-- Anchors that every match of a node begins with. -/
def anchorOf : Node Measured → FlagSet StartAnchor
  | .atom _ (.anchor a) => anchorHint a
  | .atom _ _ => FlagSet.empty
  | .repeated _ b _ body => if 0 < b.min then anchorOf body else FlagSet.empty
  | .group _ k body => if k.isTransparent then anchorOf body else FlagSet.empty
  | .conditional _ _ _ _ _ => FlagSet.empty
  | .look _ _ _ => FlagSet.empty
  | .sequence _ [] => FlagSet.empty
  | .sequence _ (n :: _) => anchorOf n
  | .alternation _ [] => FlagSet.empty
  | .alternation _ (n :: ns) => anchorOfAll (anchorOf n) ns

/-- Anchors that all nodes and `acc` have in common. -/
def anchorOfAll (acc : FlagSet StartAnchor) : List (Node Measured) → FlagSet StartAnchor
  | [] => acc
  | n :: ns => anchorOfAll (acc.inter (anchorOf n)) ns

end

mutual

/-- Bytes that every match of a node begins with, case mattering. -/
def leadingOf : Node Measured → Option Bytes
  | .atom _ (.literal bytes false) => if bytes.isEmpty then none else some bytes
  | .group _ k body => if k.isTransparent then leadingOf body else none
  | .sequence _ items => leadingOfFirst items
  | _ => none

/-- The same for the first node that is no anchor. -/
def leadingOfFirst : List (Node Measured) → Option Bytes
  | [] => none
  | n :: ns => if n.isZeroWidth then leadingOfFirst ns else leadingOf n

end

/-- Codes that fold together with the first character of a literal, given that character and its
fold. A character that folds to several may match in more ways than can be told. -/
def foldedCodes (e : Encoding) (code folded : Nat) : Option (List Nat) :=
  let step := fun (acc : List Nat × Bool) (f : Fold) =>
    match f.result with
    | [c] => if f.source == code || f.source == folded then (c :: acc.1, acc.2) else acc
    | c :: _ =>
      if c == folded then (f.source :: acc.1, acc.2)
      else if f.source == code then (acc.1, true)
      else acc
    | [] => acc
  let (codes, expands) := e.folds.foldl step ([code, folded], false)
  if expands then none else some codes

/-- First bytes of the characters that may begin a folded literal. -/
def foldedFirstBytes (e : Encoding) (bytes : Bytes) : Option ByteSet :=
  let len := min (max 1 (e.charLen (bytes.byteAt 0))) bytes.size
  let first := bytes.slice 0 len
  let folded := e.foldBytes first
  if folded.isEmpty || e.charLen (folded.byteAt 0) < folded.size then none
  else
    let codes := foldedCodes e (e.decode first 0 first.size) (e.decode folded 0 folded.size)
    (codes.bind (·.mapM fun c => ((e.encode c).toOption).bind List.head?)).map ByteSet.ofList

/-- First bytes of the characters of a class, where they can be told by their first byte. -/
def classFirstBytes (e : Encoding) (ranges : List CodeRange) (negated : Bool) : Option ByteSet :=
  let k := CharClass.ofRanges ranges negated
  if k.hasHigh || (!e.isSingleByte && k.lowMembers.toList.any (0x80 ≤ ·)) then none
  else some k.lowMembers

def literalFirstBytes (e : Encoding) (bytes : Bytes) (fold : Bool) : Option ByteSet :=
  match bytes[0]? with
  | none => none
  | some b => if fold then foldedFirstBytes e bytes else some (ByteSet.ofList [b])

mutual

/-- Bytes one of which every match of a node begins with. -/
def firstBytesOf (e : Encoding) : Node Measured → Option ByteSet
  | .atom _ (.literal bytes fold) => literalFirstBytes e bytes fold
  | .atom _ (.charClass ranges negated) => classFirstBytes e ranges negated
  | .atom _ _ => none
  | .repeated _ b _ body => if 0 < b.min then firstBytesOf e body else none
  | .group _ k body => if k.isTransparent then firstBytesOf e body else none
  | .conditional _ _ _ _ _ => none
  | .look _ _ _ => none
  | .sequence _ items => firstBytesOfFirst e items
  | .alternation _ branches => firstBytesOfAll e ByteSet.empty branches

/-- The same for the first node that is no anchor, if it consumes something. -/
def firstBytesOfFirst (e : Encoding) : List (Node Measured) → Option ByteSet
  | [] => none
  | n :: ns =>
    if n.isZeroWidth then firstBytesOfFirst e ns
    else if n.info.minChars = 0 then none
    else firstBytesOf e n

/-- The same for nodes one of which is matched. -/
def firstBytesOfAll (e : Encoding) (acc : ByteSet) : List (Node Measured) → Option ByteSet
  | [] => some acc
  | n :: ns =>
    if n.info.minChars = 0 then none
    else
      match firstBytesOf e n with
      | none => none
      | some s => firstBytesOfAll e (acc.union s) ns

end

def ofTree (e : Encoding) (root : Node Measured) : Hints where
  anchor := anchorOf root
  leading := leadingOf root
  firstBytes := firstBytesOf e root
  minLength := root.info.minBytes

end Hints
end RegexMachine
