import Mugglec.Machinery.DenseTable
import Mugglec.Machinery.Steps

/-!
# Event/EvloopPoll — the contexts of a `poll` event loop (`event/internal/event_loop_poll.c`)

A registered context has a node in `ctx_list`, a pointer to the node in `nodes`, and its descriptor
at the same index of `fds`; index 0 is the wake signal.
-/

namespace Mugglec

open Function

structure CtxList (C : Type*) where
  nodes : List ℕ
  data : ℕ → Option C
  fresh : ℕ
  nodup : nodes.Nodup
  lt_fresh : ∀ node ∈ nodes, node < fresh
  mem_iff : ∀ node, node ∈ nodes ↔ (data node).isSome

namespace CtxList

variable {C : Type*}

def empty : CtxList C where
  nodes := []
  data := fun _ => none
  fresh := 0
  nodup := List.nodup_nil
  lt_fresh := fun _ h => absurd h List.not_mem_nil
  mem_iff := fun _ => by simp

variable (l : CtxList C)

theorem fresh_notMem : l.fresh ∉ l.nodes := fun h => absurd (l.lt_fresh _ h) (lt_irrefl _)

def append (ctx : C) : CtxList C where
  nodes := l.nodes ++ [l.fresh]
  data := update l.data l.fresh (some ctx)
  fresh := l.fresh + 1
  nodup := List.Nodup.append l.nodup (List.nodup_singleton _)
    (List.disjoint_singleton.mpr l.fresh_notMem)
  lt_fresh := fun node h => by
    rcases List.mem_append.mp h with h | h
    · exact Nat.lt_succ_of_lt (l.lt_fresh node h)
    · rw [List.mem_singleton.mp h]
      exact Nat.lt_succ_self _
  mem_iff := fun node => by
    rcases eq_or_ne node l.fresh with rfl | hne
    · simp
    · simp [hne, l.mem_iff]

def remove (node : ℕ) : CtxList C where
  nodes := l.nodes.erase node
  data := update l.data node none
  fresh := l.fresh
  nodup := l.nodup.erase node
  lt_fresh := fun n h => l.lt_fresh n (List.mem_of_mem_erase h)
  mem_iff := fun n => by
    rcases eq_or_ne n node with rfl | hne
    · simp [l.nodup.mem_erase_iff]
    · simp [l.nodup.mem_erase_iff, hne, l.mem_iff]

end CtxList

structure Revents where
  pollin : Bool
  pollhup : Bool
  pollerr : Bool
deriving DecidableEq, Repr

structure PollFd where
  fd : ℤ
  revents : Revents
deriving DecidableEq, Repr

inductive PollCb
  | read | close
deriving DecidableEq, Repr

structure PollCall (C : Type*) where
  cb : PollCb
  node : ℕ
  ctx : C
deriving DecidableEq, Repr

structure PollAddOutcome where
  sameThread : Bool
  setNonblock : Bool
  node : Bool
deriving DecidableEq, Repr

inductive PollAction (C : Type*)
  | addCtx (ctx : C) (o : PollAddOutcome)
  | setClosed (ctx : C)
deriving DecidableEq, Repr

abbrev PollFn (C : Type*) := List (PollCall C) → List (PollAction C)

structure PollCallbacks (C : Type*) where
  cbRead : Option (PollFn C)
  cbClose : Option (PollFn C)
  cbWake : Option (PollFn C)
  cbTimer : Option (PollFn C)

structure PollLoop (C : Type*) where
  capacity : ℕ
  nfd : ℕ
  fds : ℕ → PollFd
  nodes : ℕ → Option ℕ
  ctxList : CtxList C
  closed : C → Bool
  calls : List (PollCall C)

namespace PollLoop

variable {C : Type*}

def init (hintsMaxFd evfd : ℤ) (closed : C → Bool) : PollLoop C where
  capacity := ((if hintsMaxFd < 1 then 8 else hintsMaxFd) + 1).toNat
  nfd := 1
  fds := update (fun _ => ⟨0, ⟨false, false, false⟩⟩) 0 ⟨evfd, ⟨false, false, false⟩⟩
  nodes := fun _ => none
  ctxList := .empty
  closed := closed
  calls := []

variable [DecidableEq C] (fdOf : C → ℤ) (s : PollLoop C)

/-- `muggle_evloop_add_ctx_poll`; `none` where it returns `-1`. -/
def addCtxPoll (ctx : C) (node : ℕ) : Option (PollLoop C) :=
  if s.nfd = s.capacity then none
  else some { s with
    nfd := s.nfd + 1
    fds := update s.fds s.nfd { s.fds s.nfd with fd := fdOf ctx }
    nodes := update s.nodes s.nfd (some node) }

/-- `muggle_evloop_add_ctx`, with whether it returns zero. -/
def addCtx (ctx : C) (o : PollAddOutcome) : PollLoop C × Bool :=
  if ¬ o.sameThread then (s, false)
  else if ¬ o.setNonblock then (s, false)
  else if ¬ o.node then (s, false)
  else
    let node := s.ctxList.fresh
    let s₁ := { s with ctxList := s.ctxList.append ctx }
    match s₁.addCtxPoll fdOf ctx node with
    | some s₂ => (s₂, true)
    | none => ({ s₁ with ctxList := s₁.ctxList.remove node }, false)

def setClosed (ctx : C) : PollLoop C := { s with closed := update s.closed ctx true }

def act (a : PollAction C) : PollLoop C :=
  match a with
  | .addCtx ctx o => (s.addCtx fdOf ctx o).1
  | .setClosed ctx => s.setClosed ctx

def callback (cb : Option (PollFn C)) : PollLoop C :=
  match cb with
  | none => s
  | some f => (f s.calls).foldl (act fdOf) s

def callbackFor (cb : Option (PollFn C)) (call : PollCall C) : PollLoop C :=
  match cb with
  | none => s
  | some f => callback fdOf { s with calls := s.calls ++ [call] } (some f)

def handleRead (cbs : PollCallbacks C) (i node : ℕ) (ctx : C) (n : ℤ) : PollLoop C × ℤ :=
  if (s.fds i).revents.pollin then (s.callbackFor fdOf cbs.cbRead ⟨.read, node, ctx⟩, n - 1)
  else (s, n)

def handleError (i : ℕ) (ctx : C) (n : ℤ) : PollLoop C × ℤ :=
  if (s.fds i).revents.pollhup || (s.fds i).revents.pollerr then (s.setClosed ctx, n - 1)
  else (s, n)

def dropNode (i node : ℕ) : PollLoop C :=
  { s with
    ctxList := s.ctxList.remove node
    nodes := update (DenseTable.moveLast s.nodes s.nfd i) (s.nfd - 1) none
    fds := DenseTable.moveLast s.fds s.nfd i
    nfd := s.nfd - 1 }

def dropEntry (i : ℕ) : Option (PollLoop C) := (s.nodes i).map (s.dropNode i)

def handleClose (cbs : PollCallbacks C) (i node : ℕ) (ctx : C) : Option (PollLoop C) :=
  if s.closed ctx then (s.callbackFor fdOf cbs.cbClose ⟨.close, node, ctx⟩).dropEntry i
  else some s

def handleEntry (cbs : PollCallbacks C) (i : ℕ) (n : ℤ) : Option (PollLoop C × ℤ) :=
  match s.nodes i with
  | none => none
  | some node =>
    match s.ctxList.data node with
    | none => none
    | some ctx =>
      let r := s.handleRead fdOf cbs i node ctx n
      let e := r.1.handleError i ctx r.2
      (e.1.handleClose fdOf cbs i node ctx).map fun s' => (s', e.2)

def handleWakeup (cbs : PollCallbacks C) : PollLoop C :=
  if (s.fds 0).revents.pollin then s.callback fdOf cbs.cbWake else s

def passLoop (cbs : PollCallbacks C) : ℕ → ℤ → PollLoop C → Option (PollLoop C)
  | 0, _, s => some (s.handleWakeup fdOf cbs)
  | i + 1, n, s =>
    match s.handleEntry fdOf cbs (i + 1) n with
    | none => none
    | some (s', n') => if n' ≤ 0 then some s' else passLoop cbs i n' s'

def report (revents : ℕ → Revents) : PollLoop C :=
  { s with
    fds := fun i => if i < s.nfd then { s.fds i with revents := revents i } else s.fds i
    calls := [] }

def pass (cbs : PollCallbacks C) (n : ℤ) (revents : ℕ → Revents) (timer : Bool) :
    Option (PollLoop C) :=
  let s₁ := s.report revents
  (if n > 0 then passLoop fdOf cbs (s₁.nfd - 1) n s₁ else some s₁).map fun s₂ =>
    if timer then s₂.callback fdOf cbs.cbTimer else s₂

end PollLoop

inductive PollStep (C : Type*)
  | act (a : PollAction C)
  | pass (cbs : PollCallbacks C) (n : ℤ) (revents : ℕ → Revents) (timer : Bool)

def PollLoop.next {C : Type*} [DecidableEq C] (fdOf : C → ℤ) (s : PollLoop C) (a : PollStep C) :
    Option (PollLoop C) :=
  match a with
  | .act a => some (s.act fdOf a)
  | .pass cbs n revents timer => s.pass fdOf cbs n revents timer

end Mugglec
