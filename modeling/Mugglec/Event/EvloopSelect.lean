import Mugglec.Event.EvloopPoll

/-!
# Event/EvloopSelect — the `select` event loop (`event/internal/event_loop_select.c`)

The loop keeps `allset`, the descriptors it passes to `select`, and `nfds`, the largest of them.
When `select` reports events both are cleared, and the pass that follows builds them up again.
-/

namespace Mugglec

namespace CtxList

variable {C : Type*} (l : CtxList C)

def first : Option ℕ := l.nodes.head?

def next (node : ℕ) : Option ℕ := (l.nodes.drop (l.nodes.idxOf node + 1)).head?

end CtxList

inductive SelectPc
  | select
  | wakeup (rset : Finset ℤ)
  | visit (node : Option ℕ) (rset : Finset ℤ)
  | closing (node : ℕ) (rset : Finset ℤ)
  | timer
deriving DecidableEq

structure SelectLoop (C : Type*) where
  allset : Finset ℤ
  nfds : ℤ
  ctxList : CtxList C
  closed : C → Bool
  pc : SelectPc
  begun : ℕ

inductive SelectStep (C : Type*)
  | register (ctx : C) (o : PollAddOutcome)
  | setClosed (ctx : C)
  | select (n : ℤ) (rset : Finset ℤ)
  | wakeup (actions : List (PollAction C))
  | visit (actions : List (PollAction C))
  | closing (actions : List (PollAction C))
  | timer (due : Bool) (actions : List (PollAction C))

namespace SelectLoop

variable {C : Type*}

def init (evfd : ℤ) (closed : C → Bool) : SelectLoop C where
  allset := {evfd}
  nfds := evfd
  ctxList := .empty
  closed := closed
  pc := .select
  begun := 0

variable [DecidableEq C] (fdOf : C → ℤ) (evfd : ℤ) (s : SelectLoop C)

def setFd (fd : ℤ) : SelectLoop C :=
  { s with allset := insert fd s.allset, nfds := if fd > s.nfds then fd else s.nfds }

def addCtxSelect (ctx : C) : SelectLoop C × ℤ := (s.setFd (fdOf ctx), 0)

def addCtx (ctx : C) (o : PollAddOutcome) : SelectLoop C :=
  if ¬ o.sameThread then s
  else if ¬ o.setNonblock then s
  else if ¬ o.node then s
  else
    let node := s.ctxList.fresh
    let r := { s with ctxList := s.ctxList.append ctx }.addCtxSelect fdOf ctx
    if r.2 ≠ 0 then { r.1 with ctxList := r.1.ctxList.remove node } else r.1

def setClosed (ctx : C) : SelectLoop C := { s with closed := Function.update s.closed ctx true }

def act (a : PollAction C) : SelectLoop C :=
  match a with
  | .addCtx ctx o => s.addCtx fdOf ctx o
  | .setClosed ctx => s.setClosed ctx

def callback (actions : List (PollAction C)) : SelectLoop C := actions.foldl (act fdOf) s

def handleWakeup (rset : Finset ℤ) (actions : List (PollAction C)) : SelectLoop C :=
  let s := if evfd ∈ rset then s.callback fdOf actions else s
  { s with allset := insert evfd s.allset, nfds := evfd }

def next (a : SelectStep C) : Option (SelectLoop C) :=
  match a, s.pc with
  | .register ctx o, .select => some (s.addCtx fdOf ctx o)
  | .setClosed ctx, _ => some (s.setClosed ctx)
  | .select n rset, .select =>
    if n > 0 then
      some { s with allset := ∅, nfds := 0, pc := .wakeup rset, begun := s.ctxList.fresh }
    else some { s with pc := .timer }
  | .wakeup actions, .wakeup rset =>
    let s := s.handleWakeup fdOf evfd rset actions
    some { s with pc := .visit s.ctxList.first rset }
  | .visit _, .visit none _ => some { s with pc := .timer }
  | .visit actions, .visit (some node) rset =>
    (s.ctxList.data node).map fun ctx =>
      let s := if fdOf ctx ∈ rset then s.callback fdOf actions else s
      { s with pc := .closing node rset }
  | .closing actions, .closing node rset =>
    (s.ctxList.data node).map fun ctx =>
      if s.closed ctx then
        let s := s.callback fdOf actions
        { s with ctxList := s.ctxList.remove node, pc := .visit (s.ctxList.next node) rset }
      else
        let s := s.setFd (fdOf ctx)
        { s with pc := .visit (s.ctxList.next node) rset }
  | .timer due actions, .timer =>
    let s := if due then s.callback fdOf actions else s
    some { s with pc := .select }
  | _, _ => none

end SelectLoop

end Mugglec
