import RegexMachine.Machine.Captures

/-!
The stack of the machine. It holds alternatives, records of what backtracking has to undo, and
markers of open regions. Calls and returns stand on it too: a search for a marker sees the frames
of the current invocation only, and passes over those between a return and its call.
-/
namespace RegexMachine

/-- What a call saves and a return puts back. -/
structure CallState where
  /-- Starts of the groups inside. -/
  starts : List (Option Nat)
  /-- Rounds of the counted loops inside. -/
  counts : List Nat
deriving DecidableEq, Repr

inductive Frame where
  | alternative (ip : Addr) (pos : Nat)
  /-- Resumes one character before `pos`, and at most `more` times in all. -/
  | stepBack (ip : Addr) (pos : Nat) (more : Option Nat)
  /-- Resumes one character before `stop`, as long as that is not before `start`. -/
  | absent (ip : Addr) (start stop : Nat)
  /-- A failure to be recorded. -/
  | guard (site pos : Nat)
  | capture (group : Nat) (slot : Slot) (history : History)
  | count (loop rounds : Nat)
  | keep (start : Option Nat)
  /-- Start of a look around. -/
  | look (mark pos : Nat)
  | atomic (mark : Nat)
  /-- Start of a round of a loop. -/
  | round (check pos : Nat)
  /-- A call that has not returned where no `returned` stands above it. -/
  | call (back : Addr) (sub : Nat) (saved : CallState)
  | returned (sub : Nat) (undo : CallState)
  /-- What is left of a frame that was discarded below others. -/
  | void
deriving DecidableEq, Repr

namespace Frame

/-- Whether a frame is discarded when its region is closed for good. -/
def isChoice : Frame → Bool
  | alternative _ _ => true
  | stepBack _ _ _ => true
  | absent _ _ _ => true
  | guard _ _ => true
  | _ => false

def isVoid : Frame → Bool
  | void => true
  | _ => false

def committed (f : Frame) : Frame := if f.isChoice then void else f

end Frame

/-- A stack seen from one of its frames. -/
structure FrameView (frames : List Frame) where
  /-- Frames above, nearest first. -/
  above : List Frame
  frame : Frame
  below : List Frame
  whole : above.reverse ++ frame :: below = frames
deriving DecidableEq, Repr

structure FrameStack where
  /-- Topmost frame first. -/
  frames : List Frame
  size : Nat
  size_eq : size = frames.length
deriving DecidableEq, Repr

namespace FrameStack

def empty : FrameStack := ⟨[], 0, rfl⟩

def push (s : FrameStack) (f : Frame) : FrameStack :=
  ⟨f :: s.frames, s.size + 1, by simp [s.size_eq]⟩

def pop? (s : FrameStack) : Option (Frame × FrameStack) :=
  match h : s.frames with
  | [] => none
  | f :: fs => some (f, ⟨fs, s.size - 1, by simp [s.size_eq, h]⟩)

/-- Finds the topmost frame of the current invocation that passes a test. It lies below the frames
in `above`, inside `level` invocations that have returned. -/
def viewFrom (p : Frame → Bool) (frames above : List Frame) (level : Nat) :
    (below : List Frame) → above.reverse ++ below = frames → Option (FrameView frames)
  | [], _ => none
  | f :: below, h =>
    have h' : (f :: above).reverse ++ below = frames := by simpa using h
    match f with
    | .returned sub undo => viewFrom p frames (.returned sub undo :: above) (level + 1) below h'
    | .call back sub saved =>
      if level = 0 then none
      else viewFrom p frames (.call back sub saved :: above) (level - 1) below h'
    | f =>
      if level = 0 && p f then some ⟨above, f, below, h⟩
      else viewFrom p frames (f :: above) level below h'

def view? (s : FrameStack) (p : Frame → Bool) : Option (FrameView s.frames) :=
  viewFrom p s.frames [] 0 s.frames rfl

def isLook (mark : Nat) : Frame → Bool
  | .look m _ => m == mark
  | _ => false

def isAtomic (mark : Nat) : Frame → Bool
  | .atomic m => m == mark
  | _ => false

def isRound (check : Nat) : Frame → Bool
  | .round c _ => c == check
  | _ => false

/-- Position that a marker has saved. -/
def savedPos : Frame → Nat
  | .look _ pos => pos
  | .round _ pos => pos
  | _ => 0

/-- The call that the current invocation runs under, inside `level` invocations that have
returned. -/
def callFrom (level : Nat) : List Frame → Option (Addr × Nat × CallState)
  | [] => none
  | .returned _ _ :: below => callFrom (level + 1) below
  | .call back sub saved :: below =>
    if level = 0 then some (back, sub, saved) else callFrom (level - 1) below
  | _ :: below => callFrom level below

def currentCall? (s : FrameStack) : Option (Addr × Nat × CallState) := callFrom 0 s.frames

/-- Takes void frames off the top. -/
def dropVoids : (frames : List Frame) → (size : Nat) → size = frames.length → FrameStack
  | .void :: below, size, h => dropVoids below (size - 1) (by simp [h])
  | frames, size, h => ⟨frames, size, h⟩

/-- Frames put on a stack one after another, choices as void. -/
def pile (below : List Frame) : List Frame → List Frame
  | [] => below
  | f :: above => pile (f.committed :: below) above

theorem length_pile (below above : List Frame) :
    (pile below above).length = above.length + below.length := by
  induction above generalizing below with
  | nil => simp [pile]
  | cons f above ih => simp [pile, ih]; omega

/-- The stack with the region of the viewed marker closed for good: the marker and the choices above
it are void, and what is to be undone stays. -/
def commit (s : FrameStack) (v : FrameView s.frames) : FrameStack :=
  dropVoids (pile (.void :: v.below) v.above) s.size (by
    have := congrArg List.length v.whole
    simp [length_pile, s.size_eq] at this ⊢
    omega)

end FrameStack
end RegexMachine
