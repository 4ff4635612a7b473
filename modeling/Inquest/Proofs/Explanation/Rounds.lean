import Inquest.Proofs.Explanation.Causes

/-!
# Explanations come about

What a node depends on has to be explained in turn, and so do the controls of the events that are
placed on the way.  What is still to be explained lies on a stack, and between two rounds the graph
is *accounted for*: each node is either untouched or explained, and the causes of an explained node
and the controls that blocks stand for are explained or on the stack.  A round explains one event
that was not explained before, so on a well-ordered recording there are rounds enough to work off
the stack, and then every cause is explained.

Nothing is done in vain, either.  If two sets of events are closed, and a graph has a node for no
event outside the first one and neither explains nor is about to explain an event outside the
second one, then this holds after every round.

## Main Definitions

* `Graph.Untouched` - a node that a step leaves alone
* `Graph.Retains` - a step after which explanations are what they were
* `Graph.Stacked` - what is on the stack is in the graph
* `Graph.Settled` - a node that no explanation is under way for
* `Graph.Accounted` - the invariant between two rounds
* `Graph.Within` - nodes and explanations stay within two sets of events
* `Graph.Completed` - what is reached when the stack has been worked off
* `Graph.unexplained` - the number of events that are left to be explained
* `Graph.Served` - what a request leads to

## Main Statements

* `Graph.skipVisited_eq` - what has been visited is passed over
* `Graph.Accounted.round` - a round keeps the graph accounted for
* `Graph.Within.round` - a round stays within closed sets
* `Graph.explainPending_induction` - what every round keeps
* `Graph.explainPending_spec` - every stack can be worked off
* `Graph.explain_spec`, `Graph.request_spec` - every recorded event can be explained and requested
-/

namespace Inquest.Graph

variable {g g' : Graph} {t : Trace} {c : Config} {e k : EventId} {id b x : NodeId} {p : Place}
variable {causes : List Cause} {pending stack rest unvisited : List NodeId}
variable {new created explained : Set EventId}

/-! ### What a step leaves alone -/

/-- What a node stands for afterwards it stood for before. -/
theorem Grows.place?_of_lt (grows : g.Grows g') (inside : x.index < g.size)
    (place : g'.place? x = some p) : g.place? x = some p := by
  obtain ⟨y, known⟩ := exists_progress?_of_lt inside
  obtain ⟨n, found, -⟩ := Option.map_eq_some_iff.1 known
  have before := place?_of_shape? (shape?_of_node? found)
  rwa [grows.place? before, ← before] at place

/-- A step from `g` to `g'` leaves a node as it was, or brings it along. -/
structure Untouched (g : Graph) (x : NodeId) (g' : Graph) : Prop extends Grows g g' where
  kept : ∀ {y}, g.progress? x = some y → g'.progress? x = some y
  fresh : ∀ {y}, g'.progress? x = some y → g.size ≤ x.index →
    ∃ p, g'.place? x = some p ∧ y = p.blank

theorem Extends.untouched (extends' : g.Extends new g') (x : NodeId) : g.Untouched x g' :=
  ⟨extends'.toGrows, extends'.progress?, extends'.fresh⟩

/-- A round leaves all nodes alone but the one that it explains. -/
theorem Explained.untouched (explained : g.Explained t c id causes unvisited g')
    (different : x ≠ id) : g.Untouched x g' :=
  ⟨explained.toGrows, explained.other different, explained.fresh⟩

namespace Untouched

variable (untouched : g.Untouched x g')

include untouched

theorem progress?_cases {y : Status × Option (List Cause)} (progress : g'.progress? x = some y) :
    x.index < g.size ∧ g.progress? x = some y ∨ ∃ p, g'.place? x = some p ∧ y = p.blank := by
  by_cases inside : x.index < g.size
  · exact .inl ⟨inside, progress?_of_kept untouched.kept inside progress⟩
  · exact .inr (untouched.fresh progress (Nat.le_of_not_lt inside))

/-- A node that has causes is not new. -/
theorem progress?_of_mem_causes {cause : Cause} (member : cause ∈ causes)
    (progress : g'.progress? x = some (.done, some causes)) :
    g.progress? x = some (.done, some causes) := by
  rcases untouched.progress?_cases progress with ⟨-, before⟩ | ⟨p, -, blank⟩
  · exact before
  · cases p with
    | event e => cases blank
    | loop first =>
      cases blank
      cases member
    | thread thread =>
      cases blank
      cases member

/-- The node of an event that is explained is not new. -/
theorem progress?_of_event {causes : Option (List Cause)} (place : g'.place? x = some (.event e))
    (progress : g'.progress? x = some (.done, causes)) :
    g.place? x = some (.event e) ∧ g.progress? x = some (.done, causes) := by
  rcases untouched.progress?_cases progress with ⟨inside, before⟩ | ⟨p, place', blank⟩
  · exact ⟨untouched.place?_of_lt inside place, before⟩
  · rw [place, Option.some.injEq] at place'
    subst place'
    cases blank

end Untouched

/-- Every node that is explained in `g` has the same causes in `g'`. -/
def Retains (g g' : Graph) : Prop :=
  ∀ x causes, g.progress? x = some (.done, some causes) →
    g'.progress? x = some (.done, some causes)

theorem Retains.done (retains : g.Retains g') (done : g.Done x) : g'.Done x := by
  obtain ⟨causes, progress⟩ := done
  exact ⟨causes, retains x causes progress⟩

theorem Retains.trans {g'' : Graph} (first : g.Retains g') (second : g'.Retains g'') :
    g.Retains g'' :=
  fun x causes progress => second x causes (first x causes progress)

theorem Extends.retains (extends' : g.Extends new g') : g.Retains g' :=
  fun _ _ progress => extends'.progress? progress

/-- A round that explains a node that nobody has visited keeps the explanations that there are. -/
theorem Explained.retains (explained : g.Explained t c id causes unvisited g')
    {y : Option (List Cause)} (untouched : g.progress? id = some (.unvisited, y)) :
    g.Retains g' := by
  intro x causes' progress
  have different : x ≠ id := by
    rintro rfl
    cases untouched.symm.trans progress
  exact explained.other different progress

/-! ### The stack -/

/-- Passing over what has been visited, on a stack of nodes. -/
theorem skipVisited_eq (inside : ∀ x ∈ stack, x.index < g.size) :
    g.skipVisited stack = .ok (stack.dropWhile (!g.isUnvisited ·)) := by
  induction stack with
  | nil => rfl
  | cons x rest ih =>
    obtain ⟨here, inside⟩ := List.forall_mem_cons.1 inside
    have found : g.node? x = some g.nodes[x.index] := Array.getElem?_eq_getElem here
    have same : g.isUnvisited x = g.nodes[x.index].isUnvisited := by
      rw [isUnvisited, found, Option.any_some]
    rw [skipVisited, node_eq_ok_iff.2 found, List.dropWhile_cons, same]
    cases unvisited : g.nodes[x.index].isUnvisited with
    | true => simp [bind, Except.bind, unvisited, pure, Except.pure]
    | false => simpa [bind, Except.bind, unvisited] using ih inside

theorem eq_dropWhile_of_skipVisited {left : List NodeId}
    (skipped : g.skipVisited stack = .ok left) :
    left = stack.dropWhile (!g.isUnvisited ·) := by
  induction stack with
  | nil =>
    cases skipped
    rfl
  | cons x rest ih =>
    rw [skipVisited] at skipped
    obtain ⟨n, found, skipped⟩ := bind_eq_ok_iff.1 skipped
    have same : g.isUnvisited x = n.isUnvisited := by
      rw [isUnvisited, node_eq_ok_iff.1 found, Option.any_some]
    rw [List.dropWhile_cons, same]
    cases unvisited : n.isUnvisited with
    | true =>
      rw [if_pos unvisited] at skipped
      cases skipped
      rfl
    | false =>
      rw [if_neg (Bool.eq_false_iff.1 unvisited)] at skipped
      exact ih skipped

section Pending

variable {n : Nat}

/-- A stack on which everything has been visited is worked off. -/
theorem explainPending_nil (skipped : g.skipVisited (g.unexplainedControls ++ pending) = .ok []) :
    explainPending t c n pending g = .ok { g with unexplainedControls := [] } := by
  cases n <;> rw [explainPending, skipped] <;> rfl

/-- Otherwise a round is needed. -/
theorem explainPending_zero
    (skipped : g.skipVisited (g.unexplainedControls ++ pending) = .ok (id :: rest)) :
    explainPending t c 0 pending g = .error .exhausted := by
  rw [explainPending, skipped]
  rfl

/-- A round explains the first node that nobody has visited. -/
theorem explainPending_succ
    (skipped : g.skipVisited (g.unexplainedControls ++ pending) = .ok (id :: rest)) :
    explainPending t c (n + 1) pending g =
      (explainNode { g with unexplainedControls := [] } t c id).bind fun explained =>
        explainPending t c n (explained.2.reverse ++ rest) explained.1 := by
  rw [explainPending, skipped]
  rfl

/-- Whatever was on a stack that has been worked off could be looked at. -/
theorem skipVisited_of_explainPending (worked : explainPending t c n pending g = .ok g') :
    ∃ left, g.skipVisited (g.unexplainedControls ++ pending) = .ok left := by
  cases n <;> rw [explainPending] at worked <;>
  · obtain ⟨left, skipped, -⟩ := bind_eq_ok_iff.1 worked
    exact ⟨left, skipped⟩

end Pending

/-- What waits to be explained are nodes of the graph. -/
def Stacked (g : Graph) (pending : List NodeId) : Prop :=
  ∀ x ∈ g.unexplainedControls ++ pending, x.index < g.size

/-- The controls that a step brings along are nodes. -/
theorem Stacked.of_gains (stacked : g.Stacked pending) (tidy : g'.Tidy t c none)
    (gains : g.Gains new g') (more : ∀ x ∈ stack, x ∈ pending ∨ x.index < g'.size) :
    g'.Stacked stack := by
  have old : ∀ x ∈ g.unexplainedControls ++ pending, x.index < g'.size := fun x listed =>
    Nat.lt_of_lt_of_le (stacked x listed) gains.size_le
  intro x listed
  rcases List.mem_append.1 listed with waits | waits
  · rcases gains.source waits with waits | ⟨k, b, -, known⟩
    · exact old x (List.mem_append_left _ waits)
    · exact tidy.lt_size_of_at? (p := .event k) known
  · rcases more x waits with waits | inside
    · exact old x (List.mem_append_right _ waits)
    · exact inside

/-- So are the causes that are found when a node is explained. -/
theorem Stacked.round {causes : List Cause} {unvisited : List NodeId}
    (stacked : g.Stacked rest) (tidy : g'.Tidy t c none)
    (explained : g.Explained t c id causes unvisited g') :
    g'.Stacked (unvisited.reverse ++ rest) := by
  refine stacked.of_gains tidy explained.toGains fun x waits => ?_
  rcases List.mem_append.1 waits with isFresh | waits
  · obtain ⟨cause, member, rfl⟩ := List.mem_map.1 (explained.listed (List.mem_reverse.1 isFresh))
    have known := explained.stands cause member
    exact .inr (tidy.lt_size_of_at? (p := .event cause.event) known)
  · exact .inl waits

/-! ### Between rounds -/

/-- The node stands for an event and was not visited yet, or it is explained. -/
def Settled (g : Graph) (x : NodeId) (y : Status × Option (List Cause)) : Prop :=
  y = (.unvisited, none) ∧ (∃ e, g.place? x = some (.event e)) ∨ ∃ causes, y = (.done, some causes)

/-- Every node is untouched or explained; the causes of an explained node are those that were
recorded, and are explained or on the stack; and so are the controls that blocks stand for, unless
they were met in this round. -/
structure Accounted (t : Trace) (c : Config) (pending : List NodeId) (g : Graph) : Prop where
  status : ∀ {x y}, g.progress? x = some y → g.Settled x y
  causes : ∀ {x causes}, g.progress? x = some (.done, some causes) → ∀ cause ∈ causes,
    g.nodeOf[cause.event]? = some cause.node ∧ (g.Done cause.node ∨ cause.node ∈ pending)
  renders : ∀ {x causes e r}, g.progress? x = some (.done, some causes) →
    g.place? x = some (.event e) → t.record? e = some r →
    List.Forall₂ t.Renders causes (r.dependencies c e)
  controls : ∀ {k : EventId} {b}, g.controlBlocks[k]? = some b → ∃ id, g.nodeOf[k]? = some id ∧
    (g.Done id ∨ id ∈ g.unexplainedControls ∨ id ∈ pending)

/-- A node of the graph that is not untouched is explained. -/
theorem done_of_visited
    (status : ∀ {y}, g.progress? x = some y → g.Settled x y)
    (inside : x.index < g.size) (visited : ∀ y, g.progress? x ≠ some (.unvisited, y)) :
    g.Done x := by
  obtain ⟨y, progress⟩ := exists_progress?_of_lt inside
  rcases status progress with ⟨rfl, -⟩ | ⟨causes, rfl⟩
  · exact absurd progress (visited none)
  · exact ⟨causes, progress⟩

namespace Accounted

section Untouched

variable (accounted : g.Accounted t c pending) (untouched : g.Untouched x g')

include accounted untouched

/-- A node that a step leaves alone, or brings along, is untouched or explained. -/
theorem status_of_untouched {y : Status × Option (List Cause)}
    (progress : g'.progress? x = some y) : g'.Settled x y := by
  rcases untouched.progress?_cases progress with ⟨-, before⟩ | ⟨p, place, rfl⟩
  · refine (accounted.status before).imp_left fun ⟨unvisited, e, place⟩ => ?_
    exact ⟨unvisited, e, untouched.place? place⟩
  · cases p with
    | event e => exact .inl ⟨rfl, e, place⟩
    | loop first => exact .inr ⟨[], rfl⟩
    | thread thread => exact .inr ⟨[], rfl⟩

theorem renders_of_untouched {r : Record} (progress : g'.progress? x = some (.done, some causes))
    (place : g'.place? x = some (.event e)) (recorded : t.record? e = some r) :
    List.Forall₂ t.Renders causes (r.dependencies c e) := by
  obtain ⟨place, before⟩ := untouched.progress?_of_event place progress
  exact accounted.renders before place recorded

end Untouched

/-- A node that is explained has causes. -/
theorem exists_causes (accounted : g.Accounted t c pending) {n : Node}
    (found : g.node? x = some n) (done : n.status = .done) :
    ∃ causes, n.causes = some causes ∧ g.progress? x = some (.done, some causes) := by
  have progress := progress?_of_node? found
  rcases accounted.status progress with ⟨unvisited, -⟩ | ⟨causes, same⟩
  · cases done.symm.trans (congrArg Prod.fst unvisited)
  · exact ⟨causes, congrArg Prod.snd same, same ▸ progress⟩

/-- The causes of an explained event are the events that it depends on. -/
theorem depends (accounted : g.Accounted t c pending) {r : Record}
    (progress : g.progress? x = some (.done, some causes))
    (place : g.place? x = some (.event e)) (recorded : t.record? e = some r) :
    causes.map Cause.event = (r.dependencies c e).map Dependency.event :=
  Trace.map_event_of_renders (accounted.renders progress place recorded)

/-- The controls that a step brings along are left to be explained. -/
theorem controls_of_gains (accounted : g.Accounted t c pending) (gains : g.Gains new g')
    (mono : ∀ {x}, g.Done x → g'.Done x) (passed : ∀ x ∈ pending, g'.Done x ∨ x ∈ stack)
    (stands : g'.controlBlocks[k]? = some b) :
    ∃ id, g'.nodeOf[k]? = some id ∧ (g'.Done id ∨ id ∈ g'.unexplainedControls ∨ id ∈ stack) := by
  rcases gains.noted stands with stands | ⟨id, waits, known⟩
  · obtain ⟨id, known, done | waits | waits⟩ := accounted.controls stands
    · exact ⟨id, gains.at? (p := .event k) known, .inl (mono done)⟩
    · exact ⟨id, gains.at? (p := .event k) known, .inr (.inl (gains.waiting waits))⟩
    · exact ⟨id, gains.at? (p := .event k) known, (passed id waits).imp_right .inr⟩
  · exact ⟨id, known, .inr (.inl waits)⟩

/-- A larger stack accounts for a graph as well. -/
theorem mono (accounted : g.Accounted t c pending) (subset : pending ⊆ stack) :
    g.Accounted t c stack := by
  refine ⟨accounted.status, fun {x causes} progress cause member => ?_, accounted.renders,
    fun {k b} stands => ?_⟩
  · obtain ⟨known, done⟩ := accounted.causes progress cause member
    exact ⟨known, done.imp_right fun waits => subset waits⟩
  · obtain ⟨id, known, done⟩ := accounted.controls stands
    exact ⟨id, known, done.imp_right fun waits => waits.imp_right fun waits => subset waits⟩

/-- Placing events keeps a graph accounted for. -/
theorem of_extends (accounted : g.Accounted t c pending) (extends' : g.Extends new g') :
    g'.Accounted t c pending := by
  refine ⟨fun {x y} progress => ?_, fun {x causes} progress cause member => ?_,
    fun {x causes e r} progress place recorded => ?_, fun {k b} stands => ?_⟩
  · exact accounted.status_of_untouched (extends'.untouched x) progress
  · have before := (extends'.untouched x).progress?_of_mem_causes member progress
    obtain ⟨known, done⟩ := accounted.causes before cause member
    exact ⟨extends'.at? (p := .event cause.event) known, done.imp_left extends'.done⟩
  · exact accounted.renders_of_untouched (extends'.untouched x) progress place recorded
  · exact accounted.controls_of_gains extends'.toGains extends'.done (fun _ waits => .inr waits)
      stands

/-- What is passed over on a stack is explained. -/
theorem done_or_mem (accounted : g.Accounted t c pending) (member : x ∈ stack)
    (inside : x.index < g.size) : g.Done x ∨ x ∈ stack.dropWhile (!g.isUnvisited ·) := by
  refine (mem_dropWhile (!g.isUnvisited ·) member).imp_left fun passed => ?_
  refine done_of_visited accounted.status inside fun y unvisited => ?_
  rw [isUnvisited_iff.2 ⟨y, unvisited⟩] at passed
  cases passed

/-- The controls that were met are put on the stack, and what is explained is passed over. -/
theorem dropWhile (accounted : g.Accounted t c pending) (tidy : g.Tidy t c none) :
    ({ g with unexplainedControls := [] } : Graph).Accounted t c
      ((g.unexplainedControls ++ pending).dropWhile (!g.isUnvisited ·)) := by
  have passed : ∀ {e : EventId} {id}, g.nodeOf[e]? = some id →
      id ∈ g.unexplainedControls ∨ id ∈ pending →
      g.Done id ∨ id ∈ (g.unexplainedControls ++ pending).dropWhile (!g.isUnvisited ·) :=
    fun {e id} known waits =>
      accounted.done_or_mem (List.mem_append.2 waits) (tidy.lt_size_of_at? (p := .event e) known)
  refine ⟨accounted.status, fun {x causes} progress cause member => ?_, accounted.renders,
    fun {k b} stands => ?_⟩
  · obtain ⟨known, done⟩ := accounted.causes progress cause member
    exact ⟨known, done.elim .inl fun waits => passed known (.inr waits)⟩
  · obtain ⟨id, known, done⟩ := accounted.controls stands
    exact ⟨id, known, (done.elim .inl (passed known)).imp_right .inr⟩

/-- A round keeps a graph accounted for. -/
theorem round (accounted : g.Accounted t c (id :: rest))
    (explained : g.Explained t c id causes unvisited g') (tidy : g'.Tidy t c none) :
    g'.Accounted t c (unvisited.reverse ++ rest) := by
  have status : ∀ {x y}, g'.progress? x = some y → g'.Settled x y := by
    intro x y progress
    by_cases self : x = id
    · subst self
      rw [explained.self, Option.some.injEq] at progress
      exact .inr ⟨causes, progress.symm⟩
    · exact accounted.status_of_untouched (explained.untouched self) progress
  have passed : ∀ x ∈ id :: rest, g'.Done x ∨ x ∈ unvisited.reverse ++ rest := by
    intro x waits
    rcases List.mem_cons.1 waits with rfl | waits
    · exact .inl ⟨causes, explained.self⟩
    · exact .inr (List.mem_append_right _ waits)
  refine ⟨status, fun {x causes'} progress cause member => ?_,
    fun {x causes' e r} progress place recorded => ?_, fun {k b} stands =>
      accounted.controls_of_gains explained.toGains explained.mono passed stands⟩
  · by_cases self : x = id
    · -- the causes of the node are new on the stack unless somebody has visited them
      subst self
      rw [explained.self] at progress
      cases progress
      have known := explained.stands cause member
      refine ⟨known, (explained.covered cause member).elim (fun listed => .inr ?_)
        fun visited => .inl ?_⟩
      · exact List.mem_append_left _ (List.mem_reverse.2 listed)
      · exact done_of_visited status (tidy.lt_size_of_at? (p := .event cause.event) known) visited
    · have before := (explained.untouched self).progress?_of_mem_causes member progress
      obtain ⟨known, waits⟩ := accounted.causes before cause member
      exact ⟨explained.at? (p := .event cause.event) known,
        waits.elim (fun done => .inl (explained.mono done)) (passed cause.node)⟩
  · by_cases self : x = id
    · subst self
      rw [explained.self] at progress
      cases progress
      exact explained.renders place recorded
    · exact accounted.renders_of_untouched (explained.untouched self) progress place recorded

end Accounted

/-! ### Nothing in vain -/

/-- There are nodes for no events outside the first set, and no event outside the second one is
explained or to be explained. -/
structure Within (created explained : Set EventId) (pending : List NodeId) (g : Graph) : Prop where
  cached : ∀ {e}, g.Cached e → e ∈ created
  done : ∀ {e : EventId} {id}, g.nodeOf[e]? = some id → g.Done id → e ∈ explained
  waits : ∀ id, id ∈ g.unexplainedControls ∨ id ∈ pending →
    ∃ e ∈ explained, g.nodeOf[e]? = some id

namespace Within

/-- If a step leaves an explained node alone, its event was explained before. -/
theorem done_of_untouched (within : g.Within created explained pending) (tidy : g.Tidy t c none)
    (tidy' : g'.Tidy t c none) (untouched : g.Untouched x g') (known : g'.nodeOf[e]? = some x)
    (done : g'.Done x) : e ∈ explained := by
  obtain ⟨causes, progress⟩ := done
  obtain ⟨place, before⟩ := untouched.progress?_of_event (tidy'.place?_of_event known) progress
  have known : g.nodeOf[e]? = some x := tidy.registered.2 place
  exact within.done known ⟨causes, before⟩

/-- If a step places events of the first set only, the controls that it leaves to be explained are
in the second one. -/
theorem of_gains (within : g.Within created explained pending)
    (closed : t.Closed c created explained) (tidy : g'.Tidy t c none) (gains : g.Gains new g')
    (subset : new ⊆ created)
    (done : ∀ {e : EventId} {id}, g'.nodeOf[e]? = some id → g'.Done id → e ∈ explained)
    (waits : ∀ id ∈ stack, ∃ e ∈ explained, g'.nodeOf[e]? = some id) :
    g'.Within created explained stack := by
  have cached : ∀ {e}, g'.Cached e → e ∈ created := fun isCached =>
    (gains.arrived isCached).elim within.cached fun isNew => subset isNew
  refine ⟨cached, done, fun id listed => listed.elim (fun listed => ?_) (waits id)⟩
  rcases gains.source listed with listed | ⟨k, b, stands, known⟩
  · obtain ⟨e, member, known⟩ := within.waits id (.inl listed)
    exact ⟨e, member, gains.at? (p := .event e) known⟩
  · obtain ⟨e, isCached, control, noLoop⟩ := tidy.decides stands
    exact ⟨k, closed.control (cached isCached) control noLoop, known⟩

/-- Placing events of the first set stays within the two sets. -/
theorem of_extends (within : g.Within created explained pending)
    (closed : t.Closed c created explained) (tidy : g.Tidy t c none) (tidy' : g'.Tidy t c none)
    (extends' : g.Extends new g') (subset : new ⊆ created) :
    g'.Within created explained pending := by
  refine within.of_gains closed tidy' extends'.toGains subset (fun {e id} known done => ?_)
    fun id listed => ?_
  · exact within.done_of_untouched tidy tidy' (extends'.untouched id) known done
  · obtain ⟨e, member, known⟩ := within.waits id (.inr listed)
    exact ⟨e, member, extends'.at? (p := .event e) known⟩

/-- The controls that were met are put on the stack, and some of it is passed over. -/
theorem stacked (within : g.Within created explained pending)
    (subset : stack ⊆ g.unexplainedControls ++ pending) :
    ({ g with unexplainedControls := [] } : Graph).Within created explained stack :=
  ⟨within.cached, within.done, fun id listed =>
    within.waits id (List.mem_append.1 (subset (listed.resolve_left List.not_mem_nil)))⟩

/-- A round stays within closed sets: the event that it explains is in the second one, so what the
event depends on is. -/
theorem round (within : g.Within created explained (id :: rest))
    (closed : t.Closed c created explained) (tidy : g.Tidy t c none) (tidy' : g'.Tidy t c none)
    (explains : g.Explained t c id causes unvisited g') :
    g'.Within created explained (unvisited.reverse ++ rest) := by
  obtain ⟨e, member, known⟩ := within.waits id (.inr List.mem_cons_self)
  obtain ⟨r, recorded⟩ := tidy.recorded_of_cached ⟨id, known⟩
  have known' : g'.nodeOf[e]? = some id := explains.at? (p := .event e) known
  have depends : ∀ o ∈ causes.map Cause.event, o ∈ explained := by
    intro o listed
    have renders := explains.renders (tidy'.place?_of_event known') recorded
    rw [Trace.map_event_of_renders renders] at listed
    exact closed.cause member ⟨r, recorded, Record.mem_dependencies_iff.1 listed⟩
  refine within.of_gains closed tidy' explains.toGains
    (closed.requirements_subset fun o listed => closed.subset (depends o listed))
    (fun {e' x} isNode done => ?_) fun x listed => ?_
  · by_cases self : x = id
    · subst self
      exact tidy'.event_unique isNode known' ▸ member
    · exact within.done_of_untouched tidy tidy' (explains.untouched self) isNode done
  · rcases List.mem_append.1 listed with listed | listed
    · obtain ⟨cause, isCause, rfl⟩ := List.mem_map.1 (explains.listed (List.mem_reverse.1 listed))
      exact ⟨cause.event, depends _ (List.mem_map_of_mem isCause), explains.stands cause isCause⟩
    · obtain ⟨e', member', isNode⟩ := within.waits x (.inr (List.mem_cons_of_mem id listed))
      exact ⟨e', member', explains.at? (p := .event e') isNode⟩

end Within

/-! ### Working off the stack -/

/-- An event has a node that is explained. -/
def isExplained (g : Graph) (e : EventId) : Bool :=
  (g.nodeOf[e]?.bind g.progress?).any (·.1 = .done)

/-- The number of recorded events that are left to be explained. -/
def unexplained (g : Graph) (t : Trace) : Nat :=
  (((List.range t.size).map Ident.mk).filter (!g.isExplained ·)).length

theorem isExplained_iff :
    g.isExplained e = true ↔
      ∃ id causes, g.nodeOf[e]? = some id ∧ g.progress? id = some (.done, causes) := by
  simp only [isExplained, Option.any_eq_true, Option.bind_eq_some_iff, decide_eq_true_eq]
  constructor
  · rintro ⟨⟨status, causes⟩, ⟨id, known, progress⟩, rfl⟩
    exact ⟨id, causes, known, progress⟩
  · rintro ⟨id, causes, known, progress⟩
    exact ⟨_, ⟨id, known, progress⟩, rfl⟩

/-- A round leaves fewer events to be explained. -/
theorem Explained.unexplained_lt (explained : g.Explained t c id causes unvisited g')
    (tidy : g.Tidy t c none) {y : Option (List Cause)}
    (untouched : g.progress? id = some (.unvisited, y)) (place : g.place? id = some (.event e)) :
    g'.unexplained t < g.unexplained t := by
  have known : g.nodeOf[e]? = some id := tidy.registered.2 place
  obtain ⟨r, recorded⟩ := tidy.recorded_of_cached ⟨id, known⟩
  refine length_filter_not_lt (a := e) (fun {e'} before => ?_) ?_ ?_ ?_
  · obtain ⟨x, causes', known', progress⟩ := isExplained_iff.1 before
    have different : x ≠ id := by
      rintro rfl
      rw [untouched] at progress
      cases progress
    exact isExplained_iff.2 ⟨x, causes', explained.at? (p := .event e') known',
      explained.other different progress⟩
  · exact List.mem_map.2 ⟨e.index, List.mem_range.2 (Trace.lt_size_of_record? recorded), rfl⟩
  · refine Bool.eq_false_iff.2 fun before => ?_
    obtain ⟨x, causes', known', progress⟩ := isExplained_iff.1 before
    rw [known, Option.some.injEq] at known'
    subst known'
    rw [untouched] at progress
    cases progress
  · exact isExplained_iff.2 ⟨id, some causes, explained.at? (p := .event e) known, explained.self⟩

/-- A round explains the first node on the stack that nobody has visited. -/
theorem round_spec (ordered : t.WellOrdered) (tidy : g.Tidy t c none)
    (accounted : g.Accounted t c pending)
    (left : (g.unexplainedControls ++ pending).dropWhile (!g.isUnvisited ·) = id :: rest) :
    ∃ g' causes unvisited,
      ({ g with unexplainedControls := [] } : Graph).explainNode t c id = .ok (g', unvisited) ∧
      g'.Tidy t c none ∧
      ({ g with unexplainedControls := [] } : Graph).Explained t c id causes unvisited g' ∧
      g'.Accounted t c (unvisited.reverse ++ rest) ∧ g.Retains g' ∧
      g'.unexplained t < g.unexplained t := by
  have tidy₀ := tidy.withUnexplained []
  have accounted₀ := accounted.dropWhile tidy
  rw [left] at accounted₀
  have unvisited : g.isUnvisited id = true := by simpa using of_dropWhile_eq_cons left
  obtain ⟨y, progress⟩ := isUnvisited_iff.1 unvisited
  obtain ⟨n, found, -⟩ := Option.map_eq_some_iff.1 progress
  obtain ⟨g', causes, unvisited, succeeds, tidy', explained⟩ :=
    explainNode_spec tidy₀ ordered found
  refine ⟨g', causes, unvisited, succeeds, tidy', explained, accounted₀.round explained tidy',
    explained.retains progress, ?_⟩
  rcases accounted.status progress with ⟨-, e, place⟩ | ⟨causes, done⟩
  · exact explained.unexplained_lt tidy₀ progress place
  · cases done

/-- The graph `g'` is reached from `g` when a stack has been worked off. -/
structure Completed (t : Trace) (c : Config) (g : Graph) (pending : List NodeId) (g' : Graph) : Prop
    extends Grows g g' where
  tidy : g'.Tidy t c none
  accounted : g'.Accounted t c []
  /-- No control is left to be explained. -/
  drained : g'.unexplainedControls = []
  retains : g.Retains g'
  /-- What was on the stack is explained. -/
  done : ∀ x ∈ pending, x.index < g.size → g'.Done x
  within : ∀ {created explained}, t.Closed c created explained →
    g.Within created explained pending → g'.Within created explained []

/-- When everything on the stack is passed over, the stack has been worked off. -/
theorem Accounted.completed (accounted : g.Accounted t c pending) (tidy : g.Tidy t c none)
    (left : (g.unexplainedControls ++ pending).dropWhile (!g.isUnvisited ·) = []) :
    g.Completed t c pending { g with unexplainedControls := [] } := by
  have accounted₀ := accounted.dropWhile tidy
  rw [left] at accounted₀
  refine ⟨.withUnexplained g [], tidy.withUnexplained [], accounted₀, rfl, fun _ _ done => done,
    fun x member inside => ?_, fun _ within => within.stacked (List.nil_subset _)⟩
  have listed := List.mem_append_right g.unexplainedControls member
  refine (accounted.done_or_mem listed inside).resolve_right ?_
  rw [left]
  exact List.not_mem_nil

/-- What holds at first and is kept by every round holds when the stack has been worked off. -/
theorem explainPending_induction {P : Graph → Prop} {n : Nat} (start : P g)
    (drained : ∀ {g}, P g → P { g with unexplainedControls := [] })
    (round : ∀ {g g' id fresh}, P g → g.isUnvisited id = true →
      g.explainNode t c id = .ok (g', fresh) → P g')
    (worked : explainPending t c n pending g = .ok g') : P g' := by
  obtain ⟨left, skipped⟩ := skipVisited_of_explainPending worked
  induction n generalizing g pending left with
  | zero =>
    cases left with
    | nil =>
      rw [explainPending_nil skipped] at worked
      cases worked
      exact drained start
    | cons id rest =>
      rw [explainPending_zero skipped] at worked
      cases worked
  | succ n ih =>
    cases left with
    | nil =>
      rw [explainPending_nil skipped] at worked
      cases worked
      exact drained start
    | cons id rest =>
      have unvisited : g.isUnvisited id = true := by
        simpa using of_dropWhile_eq_cons (eq_dropWhile_of_skipVisited skipped).symm
      rw [explainPending_succ skipped] at worked
      obtain ⟨⟨g₁, fresh⟩, explained, worked⟩ := bind_eq_ok_iff.1 worked
      obtain ⟨left', skipped'⟩ := skipVisited_of_explainPending worked
      exact ih (round (drained start) unvisited explained) worked left' skipped'

/-- Every stack can be worked off, if there are as many rounds as events left to be explained. -/
theorem explainPending_spec (ordered : t.WellOrdered) {n : Nat} (tidy : g.Tidy t c none)
    (accounted : g.Accounted t c pending) (stacked : g.Stacked pending)
    (enough : g.unexplained t ≤ n) :
    ∃ g', explainPending t c n pending g = .ok g' ∧ g.Completed t c pending g' := by
  have skipped := skipVisited_eq stacked
  induction n generalizing g pending with
  | zero =>
    cases left : (g.unexplainedControls ++ pending).dropWhile (!g.isUnvisited ·) with
    | nil => exact ⟨_, explainPending_nil (left ▸ skipped), accounted.completed tidy left⟩
    | cons id rest =>
      -- there is nothing left to be explained
      obtain ⟨g', -, -, -, -, -, -, -, fewer⟩ := round_spec ordered tidy accounted left
      omega
  | succ n ih =>
    cases left : (g.unexplainedControls ++ pending).dropWhile (!g.isUnvisited ·) with
    | nil => exact ⟨_, explainPending_nil (left ▸ skipped), accounted.completed tidy left⟩
    | cons id rest =>
      obtain ⟨g₁, causes, unvisited, succeeds, tidy₁, explained, accounted₁, retains, fewer⟩ :=
        round_spec ordered tidy accounted left
      have subset := (List.dropWhile_sublist (l := g.unexplainedControls ++ pending)
        (!g.isUnvisited ·)).subset
      rw [left] at subset
      have stacked₀ : ({ g with unexplainedControls := [] } : Graph).Stacked rest :=
        fun x waits => stacked x (subset (List.mem_cons_of_mem id waits))
      have stacked₁ := stacked₀.round tidy₁ explained
      obtain ⟨g₂, others, completed⟩ :=
        ih tidy₁ accounted₁ stacked₁ (by omega) (skipVisited_eq stacked₁)
      have grows := (Grows.withUnexplained g []).trans explained.toGrows
      refine ⟨g₂, ?_, ⟨grows.trans completed.toGrows, completed.tidy, completed.accounted,
        completed.drained, retains.trans completed.retains, fun x member inside => ?_,
        fun closed within => ?_⟩⟩
      · rw [explainPending_succ (left ▸ skipped), succeeds]
        exact others
      · have listed := List.mem_append_right g.unexplainedControls member
        rcases accounted.done_or_mem listed inside with done | waits
        · exact completed.retains.done (retains.done done)
        · rw [left] at waits
          rcases List.mem_cons.1 waits with rfl | waits
          · exact completed.retains.done ⟨causes, explained.self⟩
          · refine completed.done x (List.mem_append_right _ waits) ?_
            exact Nat.lt_of_lt_of_le inside explained.size_le
      · exact completed.within closed
          ((within.stacked subset).round closed (tidy.withUnexplained []) tidy₁ explained)

/-! ### Requests -/

theorem unexplained_le (g : Graph) (t : Trace) : g.unexplained t ≤ t.size := by
  have short := List.length_filter_le (!g.isExplained ·) ((List.range t.size).map Ident.mk)
  rwa [List.length_map, List.length_range] at short

/-- The graph `g'` is reached from `g` by a request about an event, and `id` is the node of the
event. -/
structure Served (t : Trace) (c : Config) (g : Graph) (e : EventId) (id : NodeId) (g' : Graph) :
    Prop extends Grows g g' where
  tidy : g'.Tidy t c none
  accounted : g'.Accounted t c []
  drained : g'.unexplainedControls = []
  retains : g.Retains g'
  known : g'.nodeOf[e]? = some id

/-- Every recorded event can be explained, whatever has been asked before. -/
theorem explain_spec (ordered : t.WellOrdered) (tidy : g.Tidy t c none)
    (accounted : g.Accounted t c []) (stacked : g.Stacked []) (inside : e.index < t.size) :
    ∃ g' id, g.explain t c e = .ok (g', id) ∧ g.Served t c e id g' ∧ g'.Done id ∧
      ∀ {created explained}, t.Closed c created explained → e ∈ explained →
        g.Within created explained [] → g'.Within created explained [] := by
  obtain ⟨g₁, id, placed, tidy₁, extends₁, known⟩ := place_spec tidy ordered inside
  have accounted₁ : g₁.Accounted t c [id] :=
    (accounted.of_extends extends₁).mono (List.nil_subset _)
  have stacked₁ : g₁.Stacked [id] := stacked.of_gains tidy₁ extends₁.toGains fun x waits =>
    .inr (List.mem_singleton.1 waits ▸ tidy₁.lt_size_of_at? (p := .event e) known)
  obtain ⟨g₂, succeeds, completed⟩ :=
    explainPending_spec ordered tidy₁ accounted₁ stacked₁ (g₁.unexplained_le t)
  refine ⟨g₂, id, ?_, ⟨extends₁.toGrows.trans completed.toGrows, completed.tidy,
    completed.accounted, completed.drained, extends₁.retains.trans completed.retains,
    completed.at? (p := .event e) known⟩, ?_, fun closed member within => ?_⟩
  · simp only [explain, placed, succeeds, bind, Except.bind]
    rfl
  · exact completed.done id List.mem_cons_self (tidy₁.lt_size_of_at? (p := .event e) known)
  · have within₁ := within.of_extends closed tidy tidy₁ extends₁
      (closed.requirements_subset fun e' listed =>
        List.mem_singleton.1 listed ▸ closed.subset member)
    refine completed.within closed ⟨within₁.cached, within₁.done, fun x listed => ?_⟩
    rcases listed with waits | listed
    · exact within₁.waits x (.inl waits)
    · exact ⟨e, member, List.mem_singleton.1 listed ▸ known⟩

/-- Every recorded event can be requested, whatever has been asked before. -/
theorem request_spec (ordered : t.WellOrdered) (tidy : g.Tidy t c none)
    (accounted : g.Accounted t c []) (stacked : g.Stacked []) (inside : e.index < t.size) :
    ∃ g' id, g.request t c e = .ok (g', id) ∧ g.Served t c e id g' ∧
      ∀ {created explained}, t.Closed c created explained → e ∈ created →
        g.Within created explained [] → g'.Within created explained [] := by
  obtain ⟨g₁, id, placed, tidy₁, extends₁, known⟩ := place_spec tidy ordered inside
  have accounted₁ := accounted.of_extends extends₁
  have within₁ : ∀ {created explained}, t.Closed c created explained → e ∈ created →
      g.Within created explained [] → g₁.Within created explained [] :=
    fun closed member within => within.of_extends closed tidy tidy₁ extends₁
      (closed.requirements_subset fun e' listed => List.mem_singleton.1 listed ▸ member)
  unfold request
  simp only [placed, bind, Except.bind]
  cases controls : g₁.unexplainedControls with
  | nil =>
    exact ⟨g₁, id, rfl,
      ⟨extends₁.toGrows, tidy₁, accounted₁, controls, extends₁.retains, known⟩, within₁⟩
  | cons latest others =>
    -- the latest control is put on the stack, where the others would come
    have listed : ∀ x, x ∈ g₁.unexplainedControls ↔ x ∈ others ∨ x ∈ [latest] := fun x => by
      rw [controls, List.mem_cons, List.mem_singleton, or_comm]
    have accounted₂ : ({ g₁ with unexplainedControls := others } : Graph).Accounted t c [latest] :=
      ⟨accounted₁.status, fun progress cause member =>
          (accounted₁.causes progress cause member).imp_right fun done =>
            .inl (done.resolve_right List.not_mem_nil),
        accounted₁.renders, fun stands => by
          obtain ⟨id, known, done⟩ := accounted₁.controls stands
          refine ⟨id, known, done.imp_right fun waits => ?_⟩
          exact (listed id).1 (waits.resolve_right List.not_mem_nil)⟩
    have stacked₁ : g₁.Stacked [] :=
      stacked.of_gains tidy₁ extends₁.toGains fun _ none => absurd none List.not_mem_nil
    have stacked₂ : ({ g₁ with unexplainedControls := others } : Graph).Stacked [latest] :=
      fun x waits => stacked₁ x (List.mem_append_left _ ((listed x).2 (List.mem_append.1 waits)))
    obtain ⟨g₂, succeeds, completed⟩ := explainPending_spec ordered
      (tidy₁.withUnexplained others) accounted₂ stacked₂ (unexplained_le _ t)
    have grows := extends₁.toGrows.trans (.withUnexplained g₁ others)
    refine ⟨g₂, id, ?_, ⟨grows.trans completed.toGrows, completed.tidy, completed.accounted,
      completed.drained, extends₁.retains.trans completed.retains,
      completed.at? (p := .event e) known⟩, fun closed member within => ?_⟩
    · simp only [succeeds]
      rfl
    · have within := within₁ closed member within
      exact completed.within closed ⟨within.cached, within.done, fun x waits =>
        within.waits x (.inl ((listed x).2 waits))⟩

end Inquest.Graph
