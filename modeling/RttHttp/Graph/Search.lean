import Mathlib.Algebra.BigOperators.Group.List.Basic
import Mathlib.Algebra.Order.BigOperators.Group.List
import Mathlib.Algebra.Order.Ring.Int
import Mathlib.Algebra.Order.Group.Nat
import Mathlib.Logic.Function.Basic
import Mathlib.Logic.Relation

/-! # Iterative depth-first search

The search keeps an explicit stack of nodes, each with a cursor into its
successors. A node is marked active when it is pushed and finished when it is
popped. `expand` gives the successors of a node that has an entry, and `inspect`
may refuse an edge on sight; meeting an active node is a cycle.
-/

namespace RttHttp.Graph

inductive Mark where
  | fresh
  | active
  | finished
  deriving DecidableEq, Repr

/-- Why a search stops early. -/
inductive Stop (Node Reason : Type*) where
  | refused (reason : Reason)
  | cycle (node : Node)
  | absent (node : Node)
  | outOfFuel
  deriving DecidableEq, Repr

structure Search (Node : Type*) where
  marks : Node → Mark
  stack : List (Node × Nat)

variable {Node Reason : Type*}
variable (expand : Node → Option (List Node)) (inspect : Node → Node → Option Reason)

section Definitions

variable [DecidableEq Node]

/-- One round of the inner loop, on a stack with `current` at its top. -/
def visit (marks : Node → Mark) (current : Node) (next : Nat) (below : List (Node × Nat)) :
    Except (Stop Node Reason) (Search Node) :=
  match expand current with
  | none => .error (.absent current)
  | some successors =>
      match successors[next]? with
      | none => .ok ⟨Function.update marks current .finished, below⟩
      | some successor =>
          match inspect current successor with
          | some reason => .error (.refused reason)
          | none =>
              match marks successor with
              | .active => .error (.cycle successor)
              | .fresh =>
                  .ok ⟨Function.update marks successor .active,
                    (successor, 0) :: (current, next + 1) :: below⟩
              | .finished => .ok ⟨marks, (current, next + 1) :: below⟩

/-- The inner loop, until the stack is empty. -/
def explore : (fuel : Nat) → Search Node → Except (Stop Node Reason) (Node → Mark)
  | _, ⟨marks, []⟩ => .ok marks
  | 0, ⟨_, _ :: _⟩ => .error .outOfFuel
  | fuel + 1, ⟨marks, (current, next) :: below⟩ =>
      match visit expand inspect marks current next below with
      | .error stop => .error stop
      | .ok state => explore fuel state

/-- The loop over the nodes a search starts from. -/
def exploreAll (fuel : Nat) : List Node → (Node → Mark) → Except (Stop Node Reason) (Node → Mark)
  | [], marks => .ok marks
  | root :: rest, marks =>
      if marks root = .finished then exploreAll fuel rest marks
      else match explore expand inspect fuel ⟨Function.update marks root .active, [(root, 0)]⟩ with
        | .error stop => .error stop
        | .ok marks => exploreAll fuel rest marks

end Definitions

/-! ## What a search is about -/

def Edge (source target : Node) : Prop :=
  ∃ successors, expand source = some successors ∧ target ∈ successors

/-- A node below which every edge is accepted and every descent ends. -/
inductive Grounded : Node → Prop
  | intro {node : Node} {successors : List Node} (hexpand : expand node = some successors)
      (haccepted : ∀ successor ∈ successors, inspect node successor = none)
      (hbelow : ∀ successor ∈ successors, Grounded successor) : Grounded node

/-- An early end that the graph itself justifies. -/
def Justified : Stop Node Reason → Prop
  | .refused reason => ∃ source target, Edge expand source target ∧
      inspect source target = some reason
  | .cycle node => Relation.TransGen (Edge expand) node node
  | .absent _ | .outOfFuel => False

variable {expand inspect}

theorem Grounded.not_cyclic {node : Node} (h : Grounded expand inspect node) :
    ¬ Relation.TransGen (Edge expand) node node := by
  induction h with
  | @intro node successors hexpand _ _ ih =>
      intro hcycle
      obtain ⟨next, ⟨found, hfound, hnext⟩, hback⟩ := Relation.TransGen.head'_iff.mp hcycle
      obtain rfl : found = successors := Option.some.inj (hfound.symm.trans hexpand)
      -- The cycle can be read from its second node on.
      exact ih next hnext (Relation.TransGen.tail' hback ⟨found, hfound, hnext⟩)

theorem Grounded.accepted {node target : Node} (h : Grounded expand inspect node)
    (hedge : Edge expand node target) : inspect node target = none := by
  obtain ⟨hexpand, haccepted, -⟩ := h
  obtain ⟨found, hfound, htarget⟩ := hedge
  obtain rfl := Option.some.inj (hfound.symm.trans hexpand)
  exact haccepted target htarget

/-! ## The invariant of the stack -/

/-- The nodes on a stack. -/
def stacked (stack : List (Node × Nat)) : List Node := stack.map Prod.fst

/-- The frames of a stack below the node `above`: everything the cursor has
passed is accepted, and finished unless it is `above` itself. -/
def Frames (expand : Node → Option (List Node)) (inspect : Node → Node → Option Reason)
    (marks : Node → Mark) : Option Node → List (Node × Nat) → Prop
  | _, [] => True
  | above, (node, next) :: below =>
      marks node = .active ∧
      (∃ successors, expand node = some successors ∧
        (∀ passed ∈ successors.take next, inspect node passed = none ∧
          (marks passed = .finished ∨ above = some passed)) ∧
        ∀ child, above = some child → child ∈ successors) ∧
      Frames expand inspect marks (some node) below

theorem Frames.active {marks : Node → Mark} {above : Option Node} {stack : List (Node × Nat)}
    (h : Frames expand inspect marks above stack) {node : Node} (hnode : node ∈ stacked stack) :
    marks node = .active := by
  induction stack generalizing above with
  | nil => simp [stacked] at hnode
  | cons frame below ih =>
      rcases List.mem_cons.mp hnode with rfl | hnode
      · exact h.1
      · exact ih h.2.2 hnode

theorem Frames.change {marks after : Node → Mark} {above next : Option Node}
    {stack : List (Node × Nat)} (h : Frames expand inspect marks above stack)
    (hsame : ∀ node ∈ stacked stack, after node = marks node)
    (hfinished : ∀ node, marks node = .finished → after node = .finished)
    (habove : ∀ node, above = some node → after node = .finished ∨ next = some node)
    (hnext : ∀ node, next = some node → above = some node) :
    Frames expand inspect after next stack := by
  induction stack generalizing above next with
  | nil => trivial
  | cons frame below ih =>
      obtain ⟨node, cursor⟩ := frame
      obtain ⟨hactive, ⟨successors, hexpand, hpassed, hchild⟩, hbelow⟩ := h
      refine ⟨(hsame node (by simp [stacked])).trans hactive, ⟨successors, hexpand, ?_, ?_⟩, ?_⟩
      · intro passed hmem
        obtain ⟨haccepted, hdone⟩ := hpassed passed hmem
        refine ⟨haccepted, ?_⟩
        rcases hdone with hdone | hdone
        · exact .inl (hfinished passed hdone)
        · exact habove passed hdone
      · intro child hchild'
        exact hchild child (hnext child hchild')
      · apply ih hbelow
        · intro other hother
          exact hsame other (List.mem_cons_of_mem node hother)
        · intro other hother
          exact .inr hother
        · intro other hother
          exact hother

/-- Every node on the stack leads to the node above it. -/
theorem Frames.leads {marks : Node → Mark} {top : Node} {stack : List (Node × Nat)}
    (h : Frames expand inspect marks (some top) stack) {node : Node} (hnode : node ∈ stacked stack) :
    Relation.TransGen (Edge expand) node top := by
  induction stack generalizing top with
  | nil => simp [stacked] at hnode
  | cons frame below ih =>
      obtain ⟨head, cursor⟩ := frame
      obtain ⟨-, ⟨successors, hexpand, -, hchild⟩, hbelow⟩ := h
      have hedge : Edge expand head top := ⟨successors, hexpand, hchild top rfl⟩
      rcases List.mem_cons.mp hnode with rfl | hnode
      · exact .single hedge
      · exact (ih hbelow hnode).tail hedge

/-- The marks and the stack of a search between two rounds. -/
structure Invariant (expand : Node → Option (List Node)) (inspect : Node → Node → Option Reason)
    (marks : Node → Mark) (stack : List (Node × Nat)) : Prop where
  frames : Frames expand inspect marks none stack
  distinct : (stacked stack).Nodup
  active : ∀ node, marks node = .active → node ∈ stacked stack
  grounded : ∀ node, marks node = .finished → Grounded expand inspect node

section Step

variable {marks : Node → Mark} {current : Node} {next : Nat} {below : List (Node × Nat)}
  {successors : List Node}

/-- The cursor passes a successor that is accepted, and finished unless it is
about to be pushed. -/
theorem Frames.pass {successor : Node} {above : Option Node}
    (h : Frames expand inspect marks none ((current, next) :: below))
    (hexpand : expand current = some successors) (hnext : successors[next]? = some successor)
    (haccepted : inspect current successor = none)
    (hdone : marks successor = .finished ∨ above = some successor)
    (habove : ∀ child, above = some child → child = successor) :
    Frames expand inspect marks above ((current, next + 1) :: below) := by
  obtain ⟨hactive, ⟨found, hfound, hpassed, -⟩, hbelow⟩ := h
  obtain rfl := Option.some.inj (hfound.symm.trans hexpand)
  refine ⟨hactive, ⟨found, hexpand, ?_, ?_⟩, hbelow⟩
  · intro passed hmem
    rw [List.take_add_one, hnext] at hmem
    rcases List.mem_append.mp hmem with hmem | hmem
    · obtain ⟨hok, hfinished⟩ := hpassed passed hmem
      exact ⟨hok, .inl (hfinished.resolve_right (by simp))⟩
    · obtain rfl : passed = successor := by simpa using hmem
      exact ⟨haccepted, hdone⟩
  · intro child hchild
    rw [habove child hchild]
    exact List.mem_of_getElem? hnext

theorem Invariant.skip {successor : Node}
    (h : Invariant expand inspect marks ((current, next) :: below))
    (hexpand : expand current = some successors) (hnext : successors[next]? = some successor)
    (haccepted : inspect current successor = none) (hmark : marks successor = .finished) :
    Invariant expand inspect marks ((current, next + 1) :: below) where
  frames := h.frames.pass hexpand hnext haccepted (.inl hmark) (by simp)
  distinct := h.distinct
  active := h.active
  grounded := h.grounded

variable [DecidableEq Node]

/-- A node is popped when its cursor has passed all successors. -/
theorem Invariant.pop (h : Invariant expand inspect marks ((current, next) :: below))
    (hexpand : expand current = some successors) (hnext : successors[next]? = none) :
    Invariant expand inspect (Function.update marks current .finished) below := by
  obtain ⟨⟨-, ⟨found, hfound, hpassed, -⟩, hbelow⟩, hdistinct, hactive, hgrounded⟩ := h
  obtain rfl := Option.some.inj (hfound.symm.trans hexpand)
  obtain ⟨hcurrent, hdistinct⟩ := List.nodup_cons.mp hdistinct
  rw [List.take_of_length_le (List.getElem?_eq_none_iff.mp hnext)] at hpassed
  have hdone : Grounded expand inspect current := by
    refine ⟨hexpand, fun successor hmem => (hpassed successor hmem).1, ?_⟩
    intro successor hmem
    exact hgrounded successor ((hpassed successor hmem).2.resolve_right (by simp))
  refine ⟨?_, hdistinct, ?_, ?_⟩
  · apply hbelow.change
    · intro node hnode
      have hne : node ≠ current := fun heq => hcurrent (heq ▸ hnode)
      exact Function.update_of_ne hne ..
    · intro node hnode
      by_cases heq : node = current
      · rw [heq, Function.update_self]
      · rw [Function.update_of_ne heq, hnode]
    · intro node hnode
      obtain rfl := Option.some.inj hnode
      exact .inl (Function.update_self ..)
    · intro node hnode
      cases hnode
  · intro node hnode
    by_cases heq : node = current
    · rw [heq, Function.update_self] at hnode
      cases hnode
    · rw [Function.update_of_ne heq] at hnode
      exact (List.mem_cons.mp (hactive node hnode)).resolve_left heq
  · intro node hnode
    by_cases heq : node = current
    · exact heq ▸ hdone
    · rw [Function.update_of_ne heq] at hnode
      exact hgrounded node hnode

/-- A fresh successor with an entry is pushed. -/
theorem Invariant.push {successor : Node} {onward : List Node}
    (h : Invariant expand inspect marks ((current, next) :: below))
    (hexpand : expand current = some successors) (hnext : successors[next]? = some successor)
    (haccepted : inspect current successor = none) (hmark : marks successor = .fresh)
    (hentry : expand successor = some onward) :
    Invariant expand inspect (Function.update marks successor .active)
      ((successor, 0) :: (current, next + 1) :: below) := by
  have hpassed : Frames expand inspect marks (some successor) ((current, next + 1) :: below) :=
    h.frames.pass hexpand hnext haccepted (.inr rfl) fun child hchild => (Option.some.inj hchild).symm
  have hfresh : successor ∉ stacked ((current, next) :: below) := by
    intro hmem
    rw [h.frames.active hmem] at hmark
    cases hmark
  refine ⟨⟨Function.update_self .., ⟨onward, hentry, by simp, by simp⟩, ?_⟩,
    List.nodup_cons.mpr ⟨hfresh, h.distinct⟩, ?_, ?_⟩
  · apply hpassed.change
    · intro node hnode
      have hne : node ≠ successor := fun heq => hfresh (heq ▸ hnode)
      exact Function.update_of_ne hne ..
    · intro node hnode
      rw [Function.update_of_ne, hnode]
      intro heq
      rw [heq, hmark] at hnode
      cases hnode
    · intro node hnode
      exact .inr hnode
    · intro node hnode
      exact hnode
  · intro node hnode
    by_cases heq : node = successor
    · exact heq ▸ List.mem_cons_self
    · rw [Function.update_of_ne heq] at hnode
      exact List.mem_cons_of_mem successor (h.active node hnode)
  · intro node hnode
    by_cases heq : node = successor
    · rw [heq, Function.update_self] at hnode
      cases hnode
    · rw [Function.update_of_ne heq] at hnode
      exact h.grounded node hnode

/-- What a round does to a search that keeps its invariant. -/
theorem Invariant.visit (h : Invariant expand inspect marks ((current, next) :: below))
    (hentry : ∀ source target, inspect source target = none → (expand target).isSome) :
    match visit expand inspect marks current next below with
    | .error stop => Justified expand inspect stop
    | .ok state => Invariant expand inspect state.marks state.stack := by
  obtain ⟨-, ⟨successors, hexpand, -⟩, hbelow⟩ := h.frames
  simp only [Graph.visit, hexpand]
  cases hnext : successors[next]? with
  | none => exact h.pop hexpand hnext
  | some successor =>
      have hedge : Edge expand current successor :=
        ⟨successors, hexpand, List.mem_of_getElem? hnext⟩
      cases haccepted : inspect current successor with
      | some reason => simpa [haccepted] using ⟨current, successor, hedge, haccepted⟩
      | none =>
          simp only [haccepted]
          cases hmark : marks successor with
          | fresh =>
              obtain ⟨onward, honward⟩ := Option.isSome_iff_exists.mp (hentry _ _ haccepted)
              exact h.push hexpand hnext haccepted hmark honward
          | active =>
              -- An active successor is on the stack, so it leads to `current`.
              rcases List.mem_cons.mp (h.active successor hmark) with heq | hmem
              · obtain rfl : successor = current := heq
                exact .single hedge
              · exact (hbelow.leads hmem).tail hedge
          | finished => exact h.skip hexpand hnext haccepted hmark

end Step

/-! ## Termination -/

section Work

variable (expand)

def degree (node : Node) : Nat := ((expand node).getD []).length

/-- The rounds that a node which is still fresh will take. -/
def pendingWork (marks : Node → Mark) (node : Node) : Nat :=
  if marks node = .fresh then degree expand node + 1 else 0

/-- The rounds that a search with this stack has left at most. -/
def work (nodes : List Node) (marks : Node → Mark) (stack : List (Node × Nat)) : Nat :=
  (nodes.map (pendingWork expand marks)).sum +
    (stack.map fun frame => degree expand frame.1 - frame.2 + 1).sum

/-- The rounds of a whole search. -/
def totalWork (nodes : List Node) : Nat := (nodes.map fun node => degree expand node + 1).sum

variable [DecidableEq Node]

/-- Marking a fresh node active takes its rounds out of the pending ones. -/
theorem sum_pendingWork_update {nodes : List Node} (hnodes : nodes.Nodup) {marks : Node → Mark}
    {node : Node} (hnode : node ∈ nodes) (hmark : marks node = .fresh) :
    (nodes.map (pendingWork expand (Function.update marks node .active))).sum +
      (degree expand node + 1) = (nodes.map (pendingWork expand marks)).sum := by
  have hother : ∀ other, other ≠ node →
      pendingWork expand (Function.update marks node .active) other =
        pendingWork expand marks other := by
    intro other hne
    simp only [pendingWork, Function.update_of_ne hne]
  induction nodes with
  | nil => simp at hnode
  | cons head rest ih =>
      obtain ⟨hhead, hrest⟩ := List.nodup_cons.mp hnodes
      simp only [List.map_cons, List.sum_cons]
      rcases List.mem_cons.mp hnode with rfl | hnode
      · have hsame : rest.map (pendingWork expand (Function.update marks node .active)) =
            rest.map (pendingWork expand marks) := by
          apply List.map_congr_left
          intro other hmem
          exact hother other fun heq => hhead (heq ▸ hmem)
        rw [hsame]
        simp only [pendingWork, Function.update_self, hmark, reduceCtorEq, if_false, if_true]
        omega
      · rw [hother head fun heq => hhead (heq ▸ hnode)]
        have := ih hrest hnode
        omega

variable {expand}

/-- Every round lowers the work that is left. -/
theorem work_visit {nodes : List Node} (hnodes : nodes.Nodup)
    (hall : ∀ node, (expand node).isSome → node ∈ nodes)
    (hentry : ∀ source target, inspect source target = none → (expand target).isSome)
    {marks : Node → Mark} {current : Node} {next : Nat} {below : List (Node × Nat)}
    {state : Search Node} (hactive : marks current = .active)
    (hvisit : visit expand inspect marks current next below = .ok state) :
    work expand nodes state.marks state.stack < work expand nodes marks ((current, next) :: below) := by
  unfold visit at hvisit
  cases hexpand : expand current with
  | none => simp [hexpand] at hvisit
  | some successors =>
      have hdegree : degree expand current = successors.length := by simp [degree, hexpand]
      simp only [hexpand] at hvisit
      cases hnext : successors[next]? with
      | none =>
          simp only [hnext] at hvisit
          cases hvisit
          have hsame : pendingWork expand (Function.update marks current .finished) =
              pendingWork expand marks := by
            funext node
            by_cases heq : node = current
            · simp [pendingWork, heq, hactive]
            · simp [pendingWork, Function.update_of_ne heq]
          simp only [work, hsame, List.map_cons, List.sum_cons]
          omega
      | some successor =>
          obtain ⟨hlt, -⟩ := List.getElem?_eq_some_iff.mp hnext
          simp only [hnext] at hvisit
          cases haccepted : inspect current successor with
          | some reason => simp [haccepted] at hvisit
          | none =>
              simp only [haccepted] at hvisit
              cases hmark : marks successor with
              | active => simp [hmark] at hvisit
              | fresh =>
                  simp only [hmark] at hvisit
                  cases hvisit
                  have := sum_pendingWork_update expand hnodes (hall _ (hentry _ _ haccepted)) hmark
                  simp only [work, List.map_cons, List.sum_cons]
                  omega
              | finished =>
                  simp only [hmark] at hvisit
                  cases hvisit
                  simp only [work, List.map_cons, List.sum_cons]
                  omega

end Work

/-! ## Whole searches -/

section Runs

/-- Marks between two searches: nothing is active, and what is finished is grounded. -/
def Settled (expand : Node → Option (List Node)) (inspect : Node → Node → Option Reason)
    (marks : Node → Mark) : Prop :=
  ∀ node, marks node ≠ .fresh → marks node = .finished ∧ Grounded expand inspect node

/-- A round forgets no mark. -/
theorem visit_marked [DecidableEq Node] {marks : Node → Mark} {current : Node} {next : Nat}
    {below : List (Node × Nat)} {state : Search Node}
    (hvisit : visit expand inspect marks current next below = .ok state) {node : Node}
    (hnode : marks node ≠ .fresh) : state.marks node ≠ .fresh := by
  have hupdate : ∀ other mark, mark ≠ Mark.fresh →
      Function.update marks other mark node ≠ .fresh := by
    intro other mark hmark
    by_cases heq : node = other
    · rwa [heq, Function.update_self]
    · rwa [Function.update_of_ne heq]
  unfold visit at hvisit
  split at hvisit
  next => cases hvisit
  next =>
    split at hvisit
    next =>
      cases hvisit
      exact hupdate current .finished (by simp)
    next successor _ =>
      split at hvisit
      next => cases hvisit
      next =>
        split at hvisit
        next => cases hvisit
        next =>
          cases hvisit
          exact hupdate successor .active (by simp)
        next =>
          cases hvisit
          exact hnode

/-- When the stack is empty, everything that is marked is finished. -/
theorem Invariant.settled {marks : Node → Mark} (h : Invariant expand inspect marks []) :
    Settled expand inspect marks := by
  intro node hnode
  cases hmark : marks node with
  | fresh => exact absurd hmark hnode
  | active =>
      have := h.active node hmark
      simp [stacked] at this
  | finished => exact ⟨rfl, h.grounded node hmark⟩

/-- How a search ends: early for a reason, or with every marked node settled. -/
def Concluded (expand : Node → Option (List Node)) (inspect : Node → Node → Option Reason)
    (before : Node → Mark) : Except (Stop Node Reason) (Node → Mark) → Prop
  | .error stop => Justified expand inspect stop
  | .ok marks => Settled expand inspect marks ∧ ∀ node, before node ≠ .fresh → marks node ≠ .fresh

theorem Concluded.mono {before between : Node → Mark}
    {result : Except (Stop Node Reason) (Node → Mark)}
    (h : Concluded expand inspect between result)
    (hmarked : ∀ node, before node ≠ .fresh → between node ≠ .fresh) :
    Concluded expand inspect before result := by
  cases result with
  | error stop => exact h
  | ok marks => exact ⟨h.1, fun node hnode => h.2 node (hmarked node hnode)⟩

/-- A search can start at a node that is fresh. -/
theorem Settled.start [DecidableEq Node] {marks : Node → Mark}
    (h : Settled expand inspect marks) {root : Node} (hroot : (expand root).isSome) :
    Invariant expand inspect (Function.update marks root .active) [(root, 0)] := by
  obtain ⟨successors, hexpand⟩ := Option.isSome_iff_exists.mp hroot
  refine ⟨⟨Function.update_self .., ⟨successors, hexpand, by simp, by simp⟩, trivial⟩,
    by simp [stacked], ?_, ?_⟩
  · intro node hnode
    by_cases heq : node = root
    · simp [stacked, heq]
    · rw [Function.update_of_ne heq] at hnode
      have := (h node (by simp [hnode])).1
      simp [hnode] at this
  · intro node hnode
    by_cases heq : node = root
    · rw [heq, Function.update_self] at hnode
      cases hnode
    · rw [Function.update_of_ne heq] at hnode
      exact (h node (by simp [hnode])).2

section Enough

variable [DecidableEq Node] {nodes : List Node}
variable (hnodes : nodes.Nodup) (hall : ∀ node, (expand node).isSome → node ∈ nodes)
  (hentry : ∀ source target, inspect source target = none → (expand target).isSome)

include hnodes hall hentry

/-- With enough fuel the inner loop reaches an end. -/
theorem explore_concluded {fuel : Nat} {marks : Node → Mark} {stack : List (Node × Nat)}
    (hinv : Invariant expand inspect marks stack) (hwork : work expand nodes marks stack ≤ fuel) :
    Concluded expand inspect marks (explore expand inspect fuel ⟨marks, stack⟩) := by
  induction fuel generalizing marks stack with
  | zero =>
      cases stack with
      | nil => exact ⟨hinv.settled, fun _ hnode => hnode⟩
      | cons frame below => simp [work] at hwork
  | succ fuel ih =>
      cases stack with
      | nil => exact ⟨hinv.settled, fun _ hnode => hnode⟩
      | cons frame below =>
          obtain ⟨current, next⟩ := frame
          have hvisit := hinv.visit hentry
          simp only [explore]
          cases hstate : visit expand inspect marks current next below with
          | error stop =>
              rw [hstate] at hvisit
              exact hvisit
          | ok state =>
              rw [hstate] at hvisit
              have hless := work_visit hnodes hall hentry hinv.frames.1 hstate
              exact (ih hvisit (by omega)).mono fun node => visit_marked hstate

/-- With enough fuel the loop over the roots reaches an end, with all of them settled. -/
theorem exploreAll_concluded {fuel : Nat} (hfuel : totalWork expand nodes ≤ fuel)
    {roots : List Node} (hroots : ∀ root ∈ roots, (expand root).isSome) {marks : Node → Mark}
    (hsettled : Settled expand inspect marks) :
    Concluded expand inspect (fun node => if node ∈ roots then .active else marks node)
      (exploreAll expand inspect fuel roots marks) := by
  induction roots generalizing marks with
  | nil => exact ⟨hsettled, fun _ hnode => by simpa using hnode⟩
  | cons root rest ih =>
      have hrest : ∀ root ∈ rest, (expand root).isSome :=
        fun root hroot => hroots root (List.mem_cons_of_mem _ hroot)
      have hroot : (expand root).isSome := hroots root List.mem_cons_self
      have hkeep : ∀ after : Node → Mark, after root ≠ .fresh →
          (∀ node, marks node ≠ .fresh → after node ≠ .fresh) → ∀ node,
          (if node ∈ root :: rest then Mark.active else marks node) ≠ .fresh →
          (if node ∈ rest then Mark.active else after node) ≠ .fresh := by
        intro after hafter hmarked node hnode
        by_cases hmem : node ∈ rest
        · simp [hmem]
        · by_cases heq : node = root
          · simpa [heq ▸ hmem, heq] using hafter
          · simpa [hmem] using hmarked node (by simpa [hmem, heq] using hnode)
      unfold exploreAll
      split
      next hdone => exact (ih hrest hsettled).mono (hkeep marks (by simp [hdone]) fun _ h => h)
      next hdone =>
        have hfresh : marks root = .fresh := by
          by_contra hmark
          exact hdone (hsettled root hmark).1
        have hpending : (nodes.map (pendingWork expand marks)).sum ≤ totalWork expand nodes := by
          apply List.sum_le_sum
          intro node _
          unfold pendingWork
          split <;> omega
        have hwork := sum_pendingWork_update expand hnodes (hall root hroot) hfresh
        have hbound : work expand nodes (Function.update marks root .active) [(root, 0)] ≤ fuel := by
          simp only [work, List.map_cons, List.map_nil, List.sum_cons, List.sum_nil]
          omega
        have hstart := explore_concluded hnodes hall hentry (hsettled.start hroot) hbound
        split
        next stop hstop =>
          rw [hstop] at hstart
          exact hstart
        next final hfinal =>
          rw [hfinal] at hstart
          refine (ih hrest hstart.1).mono (hkeep final (hstart.2 root (by simp)) ?_)
          intro node hnode
          apply hstart.2
          by_cases heq : node = root
          · simp [heq]
          · rwa [Function.update_of_ne heq]

end Enough

/-- A search from all nodes ends; it succeeds exactly when every edge is accepted
and there is no cycle, and otherwise it has a reason. -/
theorem exploreAll_decides [DecidableEq Node] {nodes : List Node} (hnodes : nodes.Nodup)
    (hall : ∀ node, (expand node).isSome ↔ node ∈ nodes)
    (hentry : ∀ source target, inspect source target = none → (expand target).isSome)
    {result : Except (Stop Node Reason) (Node → Mark)}
    (hresult : exploreAll expand inspect (totalWork expand nodes) nodes (fun _ => .fresh) = result) :
    (result.isOk = true ↔ (∀ source target, Edge expand source target →
        inspect source target = none) ∧ ∀ node, ¬ Relation.TransGen (Edge expand) node node) ∧
      ∀ stop, result = .error stop → Justified expand inspect stop := by
  have hsettled : Settled expand inspect fun _ => .fresh := fun _ hnode => absurd rfl hnode
  have hconcluded := exploreAll_concluded hnodes (fun node => (hall node).mp) hentry (le_refl _)
    (fun root => (hall root).mpr) hsettled
  rw [hresult] at hconcluded
  cases result with
  | error stop =>
      refine ⟨⟨fun h => by simp [Except.isOk, Except.toBool] at h, ?_⟩, ?_⟩
      · rintro ⟨haccepted, hacyclic⟩
        cases stop with
        | refused reason =>
            obtain ⟨source, target, hedge, hreason⟩ := hconcluded
            rw [haccepted source target hedge] at hreason
            cases hreason
        | cycle node => exact absurd hconcluded (hacyclic node)
        | absent node => exact hconcluded.elim
        | outOfFuel => exact hconcluded.elim
      · intro other hother
        cases hother
        exact hconcluded
  | ok marks =>
      obtain ⟨hfinal, hmarked⟩ := hconcluded
      have hgrounded : ∀ node ∈ nodes, Grounded expand inspect node :=
        fun node hnode => (hfinal node (hmarked node (by simp [hnode]))).2
      have hsource : ∀ {source target}, Edge expand source target → source ∈ nodes := by
        rintro source target ⟨successors, hexpand, -⟩
        exact (hall source).mp (by simp [hexpand])
      refine ⟨⟨fun _ => ⟨?_, ?_⟩, fun _ => rfl⟩, by simp⟩
      · intro source target hedge
        exact (hgrounded source (hsource hedge)).accepted hedge
      · intro node hcycle
        obtain ⟨next, hedge, -⟩ := Relation.TransGen.head'_iff.mp hcycle
        exact (hgrounded node (hsource hedge)).not_cyclic hcycle

end Runs

end RttHttp.Graph
