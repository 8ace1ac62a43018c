import MeshSharding.Proofs.Reachable
import MeshSharding.Proofs.Spread.Adoption

namespace MeshSharding

-- A call that is to give a value of a program a sharding.
structure Write where
  program  : Program
  value    : ValueId
  sharding : Sharding

def Write.outcome (write : Write) : Except Diagnostic Program :=
  write.program.setSharding write.value write.sharding

-- The calls are made one after the other, each on the program that the one before has left, and none after one that
-- does not succeed. The program and the result are those after the last call.
inductive Program.Performs : Program → List Write → Program → Except Diagnostic Unit → Prop
  | none (p : Program) : Performs p [] p (.ok ())
  | last {p : Program} {v : ValueId} {s : Sharding} {e : Diagnostic} : p.setSharding v s = .error e →
      Performs p [⟨p, v, s⟩] p (.error e)
  | next {p q r : Program} {v : ValueId} {s : Sharding} {writes : List Write} {result : Except Diagnostic Unit} :
      p.setSharding v s = .ok q → Performs q writes r result → Performs p (⟨p, v, s⟩ :: writes) r result

namespace SpreadPlan

-- The calls that `adopt` makes.
def adoptWrites (plan : SpreadPlan) (proposal : Sharding) (p : Program) : List ValueId → List Write
  | [] => []
  | v :: rest =>
    match plan.change? p proposal v with
    | none         => adoptWrites plan proposal p rest
    | some refined =>
      ⟨p, v, refined⟩ ::
        match p.setSharding v refined with
        | .ok p    => adoptWrites plan proposal p rest
        | .error _ => []

-- The calls that `evaluate` makes.
def evaluateWrites (plan : SpreadPlan) (p : Program) (link : Link) : List Write :=
  match plan.best? p (candidates p link) with
  | none          => []
  | some proposal => plan.adoptWrites proposal p link.members

-- The calls that `run` makes.
def runWrites (plan : SpreadPlan) : (budget : Nat) → (queue : List Nat) → Program → List Write
  | _,          [],             _ => []
  | 0,          _ :: _,         _ => []
  | budget + 1, index :: queue, p =>
    let link := (plan.links[index]?).getD default
    let outcome := plan.evaluate p link
    plan.evaluateWrites p link ++
      match outcome.result with
      | .ok updated => runWrites plan budget (updated.foldl plan.enqueue queue) outcome.program
      | .error _    => []

end SpreadPlan

-- The calls that spreading makes.
def Program.spreadWrites (p : Program) (options : SpreadOptions) : List Write :=
  match p.spreadPlan options with
  | .error _ => []
  | .ok plan => plan.runWrites options.maxIterations (List.range plan.links.length) p

namespace Program.Performs

variable {p q r : Program} {writes others : List Write} {result : Except Diagnostic Unit} {e : Diagnostic}

theorem append (h : p.Performs writes q (.ok ())) (h' : q.Performs others r result) :
    p.Performs (writes ++ others) r result := by
  generalize hr : (Except.ok () : Except Diagnostic Unit) = before at h
  induction h with
  | none p          => exact h'
  | last _          => cases hr
  | next hs _ ih => exact .next hs (ih h' hr)

-- What does not succeed is one of the calls.
theorem exists_error (h : p.Performs writes q (.error e)) : ∃ write ∈ writes, write.outcome = .error e := by
  generalize hr : (Except.error e : Except Diagnostic Unit) = result at h
  induction h with
  | none p => cases hr
  | last hs =>
    cases hr
    exact ⟨_, List.mem_singleton_self _, hs⟩
  | next _ _ ih =>
    obtain ⟨write, hw, he⟩ := ih hr
    exact ⟨write, List.mem_cons_of_mem _ hw, he⟩

theorem bare_eq (h : p.Performs writes q result) :
    q.bare = p.bare ∧ ∀ write ∈ writes, write.program.bare = p.bare := by
  induction h with
  | none p => exact ⟨rfl, by simp⟩
  | last _ => exact ⟨rfl, by simp⟩
  | next hs _ ih =>
    obtain ⟨hq, hall⟩ := ih
    have hb := setSharding_bare hs
    exact ⟨hq.trans hb, List.forall_mem_cons.mpr ⟨rfl, fun write hw => (hall write hw).trans hb⟩⟩

theorem reachable (h : p.Performs writes q result) (hp : p.Reachable) : ∀ write ∈ writes, write.program.Reachable := by
  induction h with
  | none p       => simp
  | last _       => simpa using hp
  | next hs _ ih => exact List.forall_mem_cons.mpr ⟨hp, ih (hp.setSharding hs)⟩

end Program.Performs

namespace SpreadPlan

variable {plan : SpreadPlan} {p : Program} {proposal : Sharding} {link : Link} {write : Write}

-- A link has the value as a member, which adopts a proposal.
structure Adopted (plan : SpreadPlan) (write : Write) : Prop where
  member  : ∃ link ∈ plan.links, write.value ∈ link.members
  changes : ∃ proposal, plan.Changes write.program proposal write.value write.sharding

section Adopt

theorem adopt_performs (updated members : List ValueId) :
    p.Performs (plan.adoptWrites proposal p members) (plan.adopt proposal p updated members).program
      ((plan.adopt proposal p updated members).result.map fun _ => ()) := by
  induction members generalizing p updated with
  | nil => exact .none p
  | cons v members ih =>
    cases hc : plan.change? p proposal v with
    | none         => simpa only [adoptWrites, adopt, hc] using ih updated
    | some refined =>
      cases hs : p.setSharding v refined with
      | ok q    => simpa only [adoptWrites, adopt, hc, hs] using .next hs (ih (updated ++ [v]))
      | error e => simpa only [adoptWrites, adopt, hc, hs, Except.map] using .last hs

theorem mem_adoptWrites {members : List ValueId} (h : write ∈ plan.adoptWrites proposal p members) :
    write.value ∈ members ∧ plan.Changes write.program proposal write.value write.sharding := by
  induction members generalizing p with
  | nil => simp [adoptWrites] at h
  | cons v members ih =>
    rw [adoptWrites] at h
    cases hc : plan.change? p proposal v with
    | none =>
      rw [hc] at h
      exact (ih h).imp_left (List.mem_cons_of_mem v)
    | some refined =>
      simp only [hc, List.mem_cons] at h
      obtain rfl | h := h
      · exact ⟨List.mem_cons_self, change?_changes hc⟩
      · cases hs : p.setSharding v refined with
        | ok q    => exact (ih (by simpa [hs] using h)).imp_left (List.mem_cons_of_mem v)
        | error e => simp [hs] at h

end Adopt

section Evaluate

variable (plan p link)

theorem evaluate_performs : p.Performs (plan.evaluateWrites p link) (plan.evaluate p link).program
    ((plan.evaluate p link).result.map fun _ => ()) := by
  have hc : (link.members ++ link.inputs).filterMap p.sharding ++ link.fixed = candidates p link := rfl
  rw [evaluateWrites, evaluate, hc]
  cases plan.best? p (candidates p link) with
  | none          => exact .none p
  | some proposal => exact adopt_performs [] link.members

variable {plan p link}

theorem mem_evaluateWrites (h : write ∈ plan.evaluateWrites p link) :
    write.value ∈ link.members ∧ ∃ proposal, plan.Changes write.program proposal write.value write.sharding := by
  rw [evaluateWrites] at h
  split at h
  case h_1 => simp at h
  case h_2 proposal _ => exact (mem_adoptWrites h).imp_right fun hc => ⟨proposal, hc⟩

end Evaluate

section Run

variable (plan p)

-- A run that goes on after all its calls has emptied the queue, or may not evaluate any more links.
theorem run_performs (budget : Nat) (queue : List Nat) (changed : Bool) :
    ∃ result, p.Performs (plan.runWrites budget queue p) (plan.run budget queue changed p).program result ∧
      match result with
      | .ok ()   => (∃ changed', (plan.run budget queue changed p).result = .ok changed') ∨
        (plan.run budget queue changed p).result = .error ⟨.program, .notConverged plan.options.maxIterations⟩
      | .error e => (plan.run budget queue changed p).result = .error e := by
  induction budget generalizing queue changed p with
  | zero =>
    cases queue with
    | nil      => exact ⟨.ok (), .none p, .inl ⟨changed, rfl⟩⟩
    | cons _ _ => exact ⟨.ok (), .none p, .inr rfl⟩
  | succ budget ih =>
    cases queue with
    | nil => exact ⟨.ok (), .none p, .inl ⟨changed, rfl⟩⟩
    | cons index queue =>
      have h := evaluate_performs plan p ((plan.links[index]?).getD default)
      rw [runWrites, run, Outcome.andThen]
      cases hr : (plan.evaluate p ((plan.links[index]?).getD default)).result with
      | error e =>
        rw [hr] at h
        exact ⟨.error e, by simpa [Except.map] using h, rfl⟩
      | ok updated =>
        rw [hr] at h
        obtain ⟨result, hq, hresult⟩ := ih _ (updated.foldl plan.enqueue queue) (changed || !updated.isEmpty)
        exact ⟨result, h.append hq, hresult⟩

variable {plan p}

theorem mem_runWrites {budget : Nat} {queue : List Nat} (h : write ∈ plan.runWrites budget queue p) :
    plan.Adopted write := by
  induction budget generalizing queue p with
  | zero => cases queue <;> simp [runWrites] at h
  | succ budget ih =>
    cases queue with
    | nil => simp [runWrites] at h
    | cons index queue =>
      rw [runWrites] at h
      obtain h | h := List.mem_append.mp h
      · obtain ⟨hm, hc⟩ := mem_evaluateWrites h
        refine ⟨?_, hc⟩
        cases hl : plan.links[index]? with
        | some link => exact ⟨link, List.mem_of_getElem? hl, by simpa [hl] using hm⟩
        | none      => simp [hl, default, instInhabitedLink.default] at hm
      · split at h
        · exact ih h
        · simp at h

end Run

end SpreadPlan

namespace Program

variable {p : Program} {v : ValueId} {s : Sharding} {e : Diagnostic}

-- A sharding that fits is not written only because there is no place for it.
theorem setSharding_eq_error_iff (hf : s.check p.meshes (p.typeOf v).shape = .ok ()) : p.setSharding v s = .error e ↔
    p.writeSharding? v s = none ∧ e = ⟨p.locationOfValue v, p.writeFault v⟩ := by
  simp only [setSharding, Location.attach, hf, Except.mapError, bind, Except.bind]
  cases p.writeSharding? v s <;>
    simp [pure, Except.pure, throw, throwThe, MonadExceptOf.throw, eq_comm]

theorem writeFault_cases (p : Program) (v : ValueId) : p.writeFault v = .shardingNotSettable v ∨
    ∃ length index, p.writeFault v = .indexOutOfBounds length index := by
  rw [writeFault]
  split
  all_goals
    split
    · exact .inr ⟨_, _, rfl⟩
    · exact .inl rfl

end Program

end MeshSharding
