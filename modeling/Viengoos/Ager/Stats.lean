import Viengoos.Lib.Checked
import Viengoos.Policy

/-!
# The statistics of a period

`update_stats` of the ager ends a period: a walk over the tree of activities averages what the
ager has sampled and divides the frames of the machine among the activities. An activity gets its
frames from its parent and hands them on to its children and to itself, one priority after the
other: **the loop starts at the tail** of the list of children. Frame counts are natural numbers,
as no sum of them comes near `2 ^ 32`; a subtraction is checked where no comparison guards it.
Replies to the messengers that wait for the statistics are left out.
-/

namespace Viengoos.Ager

/-- What `update_stats` uses of `struct vg_activity_stats`. -/
structure Counters where
  period : ℕ := 0
  available : ℕ := 0
  availableLocal : ℕ := 0
  dampingFactor : ℤ := 0
  pressure : ℕ := 0
  pressureLocal : ℕ := 0
  clean : BitVec 32 := 0
  dirty : BitVec 32 := 0
  pendingEviction : BitVec 32 := 0
  active : BitVec 32 := 0
  activeLocal : BitVec 32 := 0
  becameActive : BitVec 32 := 0
  becameInactive : BitVec 32 := 0
  evicted : BitVec 32 := 0
  claimed : ℕ := 0
  disowned : ℕ := 0
deriving DecidableEq, Repr

instance neZero_periods : NeZero 3 := ⟨by decide⟩

/-- What `update_stats` uses of `struct activity`, the children apart. There are
`VG_ACTIVITY_STATS_PERIODS + 1 = 3` slots. -/
structure Activity where
  policy : ActivityPolicy
  framesLocal : ℕ
  framesTotal : ℕ
  framesPendingEviction : ℕ
  currentPeriod : Fin 3
  stats : Fin 3 → Counters

/-- An activity and its children in memory, in the order of the list: highest priority first. -/
inductive Tree where
  | node (activity : Activity) (children : List Tree)

namespace Tree

def activity : Tree → Activity
  | node a _ => a

def children : Tree → List Tree
  | node _ cs => cs

@[simp] theorem activity_node (a : Activity) (cs : List Tree) : (node a cs).activity = a := rfl

@[simp] theorem children_node (a : Activity) (cs : List Tree) : (node a cs).children = cs := rfl

end Tree

/-- `FREQ`: the ager samples as often as `age` has bits. -/
def freq : ℕ := 8

namespace Activity

/-- `ACTIVITY_STATS`. -/
def current (a : Activity) : Counters := a.stats a.currentPeriod

/-- `ACTIVITY_STATS_LAST`. -/
def last (a : Activity) : Counters := a.stats (a.currentPeriod - 1)

def setCurrent (a : Activity) (s : Counters) : Activity :=
  { a with stats := Function.update a.stats a.currentPeriod s }

/-- The priority among the siblings. -/
def priority (a : Activity) : ℕ := a.policy.siblingRel.priority

/-- The first lines of `stats`: the averages, and the pressure that is left from the last period. -/
def average (period : ℕ) (a : Activity) : Activity :=
  a.setCurrent { a.current with
    period := period / freq
    clean := a.current.clean / BitVec.ofNat 32 freq
    dirty := a.current.dirty / BitVec.ofNat 32 freq
    pendingEviction := BitVec.ofNat 32 a.framesPendingEviction
    activeLocal := a.current.activeLocal / BitVec.ofNat 32 freq
    active := a.current.activeLocal / BitVec.ofNat 32 freq
    pressure := (a.current.pressure + a.last.pressure / 2) % 2 ^ 8
    pressureLocal := (a.current.pressureLocal + a.last.pressureLocal / 2) % 2 ^ 8 }

/-- The frames that an activity has available: fewer than it is given if it has too many, or under
pressure. -/
def entitle (a : Activity) (frames : ℕ) : Checked ℕ :=
  if frames < a.framesTotal ∨ a.current.pressure ≠ 0 then
    .sub frames (frames / 8 / (5 - min a.current.pressure 4))
  else pure frames

/-- What is done after each child. `cstats` is `ACTIVITY_STATS (activity)`, as `stats` is. -/
def accumulate (a : Activity) : Activity :=
  let stats := a.current
  let cstats := a.current
  a.setCurrent { stats with
    clean := stats.clean + cstats.clean
    dirty := stats.dirty + cstats.dirty
    pendingEviction := stats.pendingEviction + cstats.pendingEviction
    active := stats.active + cstats.active
    becameActive := stats.becameActive + cstats.becameActive
    becameInactive := stats.becameInactive + cstats.becameInactive
    evicted := stats.evicted + cstats.evicted }

/-- The last lines of `stats`: the next slot becomes current, and is cleared. -/
def rotate (a : Activity) : Activity :=
  { a with
    currentPeriod := a.currentPeriod + 1
    stats := Function.update a.stats (a.currentPeriod + 1) {} }

end Activity

/-! ### A priority group -/

/-- What `comp_avail` is told of a member of a priority group. -/
structure Member where
  weight : ℕ
  alloced : ℕ
  claimed : ℕ
  disowned : ℕ

/-- A child, as a member of its priority group. -/
def Activity.member (p : Activity) : Member :=
  ⟨p.policy.siblingRel.weight, p.framesTotal, p.current.claimed, p.current.disowned⟩

/-- The activity itself, as a member of a priority group of its children. -/
def Activity.self (a : Activity) : Member := ⟨a.policy.childRel.weight, a.framesLocal, 0, 0⟩

/-- The members of a priority group, and the frames that are left for it. -/
structure Group where
  frames : ℕ
  members : List Member

namespace Group

def weight (g : Group) : ℕ := (g.members.map Member.weight).sum

def alloced (g : Group) : ℕ := (g.members.map Member.alloced).sum

def claimed (g : Group) : ℕ := (g.members.map Member.claimed).sum

def disowned (g : Group) : ℕ := (g.members.map Member.disowned).sum

/-- The part of the frames that is due to a member. -/
def share (g : Group) (m : Member) : ℕ :=
  if g.weight = 0 then 0 else g.frames * m.weight / g.weight

/-- The amount by which the members exceed their share. -/
def excess (g : Group) : ℕ := (g.members.map fun m => m.alloced - g.share m).sum

/-- The amount that they are entitled to use but do not. -/
def unused (g : Group) : ℕ := (g.members.map fun m => g.share m - m.alloced).sum

/-- By how much the others have claimed more frames than they have disowned, as an `int`. -/
def delta (g : Group) (m : Member) : ℤ :=
  (((g.claimed : ℤ) - m.claimed) - (g.disowned - m.disowned)).bmod (2 ^ 32)

/-- The frames that a member can steal from the others of the group. -/
def couldSteal (g : Group) (m : Member) : Checked ℕ :=
  if g.weight = 0 then pure 0
  else if g.share m < m.alloced then .sub g.excess (m.alloced - g.share m)
  else pure g.excess

/-- The frames in which the others of the group have shown no interest. -/
def couldUse (g : Group) (m : Member) : Checked ℕ :=
  if m.alloced ≤ g.share m then .sub g.unused (g.share m - m.alloced)
  else if m.alloced - g.share m < g.unused then pure (g.unused - (m.alloced - g.share m))
  else pure 0

/-- The adjustment for allocation trends. -/
def adjust (g : Group) (m : Member) (avail : ℕ) : Checked ℕ :=
  if g.share m ≤ m.alloced ∧ 0 < g.delta m then
    if 0 < g.weight then .sub avail ((g.delta m).toNat * m.weight / g.weight)
    else if g.delta m < avail then pure (avail - (g.delta m).toNat)
    else pure 0
  else pure avail

/-- `comp_avail`. -/
def compAvail (g : Group) (m : Member) : Checked ℕ := do
  let steal ← g.couldSteal m
  let avail := if g.share m < m.alloced + steal then m.alloced + steal else g.share m
  let use ← g.couldUse m
  g.adjust m (avail + use)

end Group

/-- An `int` with the value of a word. -/
def signed (x : ℕ) : ℤ := (x : ℤ).bmod (2 ^ 32)

namespace Activity

/-- The priority group of an activity's children `run`, to which the activity itself may belong. -/
def group (a : Activity) (frames priority : ℕ) (run : List Activity) : Group :=
  ⟨frames, (if a.policy.childRel.priority = priority then [a.self] else []) ++ run.map member⟩

/-- What the activity itself gets of the frames of a group. `avail` is an `int` here. -/
def takeLocal (a : Activity) (g : Group) : Checked Activity := do
  let word ← g.compAvail a.self
  let avail := signed word
  let s := a.current
  if word % 2 ^ 32 < a.framesLocal ∨ s.pressureLocal ≠ 0 then
    let dec := (avail.tdiv 8).tdiv (5 - min s.pressureLocal 4)
    pure (a.setCurrent { s with
      dampingFactor := -Nat.size (1024 * 1024 / 4096)
      availableLocal := ((avail - dec) % 2 ^ 32).toNat })
  else
    pure (a.setCurrent { s with
      dampingFactor := if 7 * (g.frames / 8) < a.framesTotal then 0
        else Nat.size (1024 * 1024 / 4096)
      availableLocal := word % 2 ^ 32 })

/-- One round of the loop: the frames of each child of the group, in the order of the loop. -/
def round (a : Activity) (frames priority : ℕ) (run : List Activity) :
    Checked (Activity × List ℕ) := do
  let g := a.group frames priority run
  let self := if a.policy.childRel.priority = priority then a.takeLocal g else pure a
  let a ← self
  let avail ← Checked.all (run.map fun p => g.compAvail p.member)
  pure (accumulate^[run.length] a, avail)

/-- The loop over the priorities; `rest` are the children from `child` to the head of the list. The
first argument is fuel: there is a round for each child at most, and one for the activity itself. -/
def loop : ℕ → Bool → ℕ → Activity → List Activity → Checked (Activity × List ℕ)
  | 0, _, _, a, _ => pure (a, [])
  | fuel + 1, haveSelf, frames, a, rest => do
    let own := a.policy.childRel.priority
    -- A round for the activity alone, before a child of lower priority or after all of them.
    if haveSelf = false ∧ ∀ child ∈ rest.head?, child.priority < own then
      let g := a.group frames own []
      let self ← a.round frames own []
      loop fuel true (frames - g.alloced) self.1 rest
    else match rest with
      | [] => pure (a, [])
      | child :: tail =>
        let run := (child :: tail).takeWhile fun p => p.priority = child.priority
        let g := a.group frames child.priority run
        let served ← a.round frames child.priority run
        let later ← loop fuel (haveSelf || own = child.priority) (frames - g.alloced) served.1
          ((child :: tail).dropWhile fun p => p.priority = child.priority)
        pure (later.1, served.2 ++ later.2)

/-- `stats` for one activity: the frames of each child are in the order of the list. -/
def divide (period : ℕ) (a : Activity) (frames : ℕ) (children : List Activity) :
    Checked (Activity × List ℕ) := do
  let a := a.average period
  let frames ← a.entitle frames
  let a := a.setCurrent { a.current with available := frames }
  if children = [] then
    pure ((a.setCurrent { a.current with availableLocal := frames }).rotate, [])
  else
    let served ← loop (children.length + 1) false frames a children.reverse
    pure (served.1.rotate, served.2.reverse)

end Activity

mutual

/-- `stats`. A call for a child changes nothing that is read for another one, so the calls come
after the loop here. -/
def stats (period : ℕ) : Tree → ℕ → Checked Tree
  | .node a cs, frames => do
    let divided ← a.divide period frames (cs.map Tree.activity)
    let cs ← statsAll period cs divided.2
    pure (.node divided.1 cs)

def statsAll (period : ℕ) : List Tree → List ℕ → Checked (List Tree)
  | [], _ => pure []
  | c :: cs, avails => do
    let c ← stats period c (avails.headD 0)
    let cs ← statsAll period cs avails.tail
    pure (c :: cs)

end

/-- `update_stats`: the root activity gets what is above the low-water mark, less a reserve. -/
def updateStats (period memoryTotal : ℕ) (root : Tree) : Checked Tree := do
  let frames ← .sub memoryTotal (memoryTotal / 8)
  let frames ← .sub frames 200
  stats period root frames

end Viengoos.Ager
