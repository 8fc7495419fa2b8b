import LinkSet.Framework.Run
import Mathlib.Data.List.Infix

/-!
# A link with a peeked chunk

`Peekable` keeps the chunk that was looked at last. `take_peeked` hands it out, but `recv` asks the
link below for the next one, whether or not a chunk is kept.
-/

namespace LinkSet

open Framework

/-- `LinkSetError::LinkError`, with the error of the link below. -/
structure LinkError (ε : Type) where
  source : ε

structure Peekable (L : Type) where
  link : L
  peeked : Option (List UInt8)

namespace Peekable

variable {L ε : Type}

def new (link : L) : Peekable L := ⟨link, none⟩

def takePeeked (p : Peekable L) : Option (List UInt8) × Peekable L :=
  (p.peeked, { p with peeked := none })

-- The `recv` of the link below; `none` if it does not return.
variable (linkRecv : L → Option (Except ε (List UInt8) × L))

def peek (p : Peekable L) : Option (Except (LinkError ε) (List UInt8) × Peekable L) :=
  match p.peeked with
  | some data => some (.ok data, p)
  | none => do
      match ← linkRecv p.link with
      | (.ok newData, link) => return (.ok newData, ⟨link, some newData⟩)
      | (.error e, link) => return (.error ⟨e⟩, { p with link })

/-- `Link::recv`. -/
def recv (p : Peekable L) : Option (Except ε (List UInt8) × Peekable L) :=
  (linkRecv p.link).map fun out => (out.1, { p with link := out.2 })

end Peekable

/-- A link with the chunks it has delivered so far. -/
structure Recorded (L : Type) where
  link : L
  delivered : List (List UInt8)

inductive PeekCall where
  | peek
  | recv
  | takePeeked
deriving DecidableEq

/-- The user of a peekable link, with the chunks handed out to them, and those shown to them, each
with how many had been handed out before. -/
structure PeekUser (L : Type) where
  peekable : Peekable (Recorded L)
  handed : List (List UInt8)
  shown : List (Nat × List UInt8)

namespace PeekUser

variable {L ε : Type}

def start (link : L) : PeekUser L := ⟨.new ⟨link, []⟩, [], []⟩

def delivered (u : PeekUser L) : List (List UInt8) := u.peekable.link.delivered

variable (linkRecv : L → Option (Except ε (List UInt8) × L))

def recordedRecv (r : Recorded L) : Option (Except ε (List UInt8) × Recorded L) :=
  (linkRecv r.link).map fun out => (out.1, ⟨out.2, r.delivered ++ out.1.toOption.toList⟩)

def call (u : PeekUser L) : PeekCall → Option (PeekUser L)
  | .peek => (u.peekable.peek (recordedRecv linkRecv)).map fun out =>
      { u with
        peekable := out.2
        shown := u.shown ++ out.1.toOption.toList.map (u.handed.length, ·) }
  | .recv => (u.peekable.recv (recordedRecv linkRecv)).map fun out =>
      { u with peekable := out.2, handed := u.handed ++ out.1.toOption.toList }
  | .takePeeked =>
      let out := u.peekable.takePeeked
      some { u with peekable := out.2, handed := u.handed ++ out.1.toList }

/-- What was handed out is how the link's chunks begin, and each chunk shown was the next one. -/
structure InOrder (u : PeekUser L) : Prop where
  handed : u.handed <+: u.delivered
  shown : ∀ s ∈ u.shown, u.delivered[s.1]? = some s.2

/-- A `recv` with a chunk kept gets an equal one from the link, or an error. -/
def Undisturbed (u : PeekUser L) : PeekCall → Prop
  | .recv => ∀ kept next link, u.peekable.peeked = some kept →
      linkRecv u.peekable.link.link = some (.ok next, link) → next = kept
  | _ => True

/-- The chunks delivered are those handed out and then the one kept, and each chunk shown was the
next one. -/
structure Kept (u : PeekUser L) : Prop where
  delivered : u.delivered = u.handed ++ u.peekable.peeked.toList
  shown : ∀ s ∈ u.shown, u.delivered[s.1]? = some s.2

private theorem Kept.inOrder {u : PeekUser L} (h : Kept u) : InOrder u where
  handed := by
    rw [h.delivered]
    exact List.prefix_append _ _
  shown := h.shown

theorem Kept.shown_append {u : PeekUser L} (h : Kept u) (more : List (List UInt8)) :
    ∀ s ∈ u.shown, (u.delivered ++ more)[s.1]? = some s.2 := by
  intro s hs
  obtain ⟨hlt, _⟩ := List.getElem?_eq_some_iff.mp (h.shown s hs)
  rw [List.getElem?_append_left hlt]
  exact h.shown s hs

private theorem Kept.shows {link : Recorded L} {handed : List (List UInt8)}
    {shown : List (Nat × List UInt8)} {data : List UInt8}
    (hdelivered : link.delivered = handed ++ [data])
    (hshown : ∀ s ∈ shown, link.delivered[s.1]? = some s.2) :
    Kept ⟨⟨link, some data⟩, handed, shown ++ [(handed.length, data)]⟩ where
  delivered := hdelivered
  shown := by
    intro s hs
    rcases List.mem_append.mp hs with hs | hs
    · exact hshown s hs
    · rw [List.mem_singleton.mp hs]
      change link.delivered[handed.length]? = some data
      simp [hdelivered]

variable {linkRecv}

private theorem call_peek_ok {link : Recorded L} {handed : List (List UInt8)}
    {shown : List (Nat × List UInt8)} {data : List UInt8} {link' : L}
    (hrecv : linkRecv link.link = some (.ok data, link')) :
    call linkRecv ⟨⟨link, none⟩, handed, shown⟩ .peek =
      some ⟨⟨⟨link', link.delivered ++ [data]⟩, some data⟩, handed,
        shown ++ [(handed.length, data)]⟩ := by
  simp [call, Peekable.peek, recordedRecv, hrecv, Except.toOption]

private theorem call_peek_error {link : Recorded L} {handed : List (List UInt8)}
    {shown : List (Nat × List UInt8)} {e : ε} {link' : L}
    (hrecv : linkRecv link.link = some (.error e, link')) :
    call linkRecv ⟨⟨link, none⟩, handed, shown⟩ .peek =
      some ⟨⟨⟨link', link.delivered⟩, none⟩, handed, shown⟩ := by
  simp [call, Peekable.peek, recordedRecv, hrecv, Except.toOption]

private theorem call_recv_ok {u : PeekUser L} {data : List UInt8} {link' : L}
    (hrecv : linkRecv u.peekable.link.link = some (.ok data, link')) :
    call linkRecv u .recv =
      some ⟨⟨⟨link', u.delivered ++ [data]⟩, u.peekable.peeked⟩, u.handed ++ [data], u.shown⟩ := by
  simp [call, Peekable.recv, recordedRecv, hrecv, Except.toOption, delivered]

private theorem call_recv_error {u : PeekUser L} {e : ε} {link' : L}
    (hrecv : linkRecv u.peekable.link.link = some (.error e, link')) :
    call linkRecv u .recv =
      some ⟨⟨⟨link', u.delivered⟩, u.peekable.peeked⟩, u.handed, u.shown⟩ := by
  simp [call, Peekable.recv, recordedRecv, hrecv, Except.toOption, delivered]

private theorem peek_kept {u u' : PeekUser L} (h : Kept u)
    (hcall : u.call linkRecv .peek = some u') : Kept u' := by
  obtain ⟨⟨link, peeked⟩, handed, shown⟩ := u
  cases peeked with
  | some data =>
      cases hcall
      exact .shows h.delivered h.shown
  | none =>
      have hdelivered : link.delivered = handed := h.delivered.trans (List.append_nil _)
      cases hrecv : linkRecv link.link with
      | none => simp [call, Peekable.peek, recordedRecv, hrecv] at hcall
      | some out =>
          obtain ⟨result, link'⟩ := out
          cases result with
          | ok data =>
              rw [call_peek_ok hrecv] at hcall
              cases hcall
              apply Kept.shows
              · exact congrArg (· ++ [data]) hdelivered
              · exact h.shown_append _
          | error e =>
              rw [call_peek_error hrecv] at hcall
              cases hcall
              exact ⟨h.delivered, h.shown⟩

private theorem takePeeked_kept {u u' : PeekUser L} (h : Kept u)
    (hcall : u.call linkRecv .takePeeked = some u') : Kept u' := by
  cases hcall
  exact ⟨h.delivered.trans (List.append_nil _).symm, h.shown⟩

private theorem recv_kept {u u' : PeekUser L} {next : List UInt8} {link : L} (h : Kept u)
    (hrecv : linkRecv u.peekable.link.link = some (.ok next, link))
    (hnext : ∀ kept, u.peekable.peeked = some kept → next = kept)
    (hcall : u.call linkRecv .recv = some u') : Kept u' := by
  rw [call_recv_ok hrecv] at hcall
  cases hcall
  refine ⟨?_, h.shown_append _⟩
  change u.delivered ++ [next] = (u.handed ++ [next]) ++ u.peekable.peeked.toList
  rw [h.delivered]
  cases hpeeked : u.peekable.peeked with
  | none => simp
  | some kept => simp [hnext kept hpeeked]

private theorem recv_skips {u u' : PeekUser L} {kept next : List UInt8} {link : L} (h : Kept u)
    (hpeeked : u.peekable.peeked = some kept)
    (hrecv : linkRecv u.peekable.link.link = some (.ok next, link)) (hne : next ≠ kept)
    (hcall : u.call linkRecv .recv = some u') : ¬ InOrder u' := by
  rw [call_recv_ok hrecv] at hcall
  cases hcall
  intro hin
  have hprefix : u.handed ++ [next] <+: u.delivered ++ [next] := hin.handed
  rw [h.delivered, hpeeked, List.append_assoc, List.prefix_append_right_inj] at hprefix
  exact hne (List.cons_prefix_cons.mp hprefix).1

/-- A call keeps the order exactly when no `recv` skips the chunk kept. -/
theorem call_inOrder_iff (u : PeekUser L) (c : PeekCall) (u' : PeekUser L) (h : Kept u)
    (hcall : u.call linkRecv c = some u') :
    (InOrder u' ↔ u.Undisturbed linkRecv c) ∧ (u.Undisturbed linkRecv c → Kept u') := by
  cases c with
  | peek =>
      have hkept := peek_kept h hcall
      exact ⟨iff_of_true hkept.inOrder trivial, fun _ => hkept⟩
  | takePeeked =>
      have hkept := takePeeked_kept h hcall
      exact ⟨iff_of_true hkept.inOrder trivial, fun _ => hkept⟩
  | recv =>
      have hkept : u.Undisturbed linkRecv .recv → Kept u' := by
        intro hundisturbed
        cases hrecv : linkRecv u.peekable.link.link with
        | none => simp [call, Peekable.recv, recordedRecv, hrecv] at hcall
        | some out =>
            obtain ⟨result, link⟩ := out
            cases result with
            | error e =>
                rw [call_recv_error hrecv] at hcall
                cases hcall
                exact ⟨h.delivered, h.shown⟩
            | ok next =>
                apply recv_kept h hrecv _ hcall
                intro kept hpeeked
                exact hundisturbed kept next link hpeeked hrecv
      refine ⟨⟨?_, fun hundisturbed => (hkept hundisturbed).inOrder⟩, hkept⟩
      intro hin kept next link hpeeked hrecv
      by_contra hne
      exact recv_skips h hpeeked hrecv hne hcall hin

private theorem undisturbed_of_stuck {u : PeekUser L} {c : PeekCall}
    (h : u.call linkRecv c = none) : u.Undisturbed linkRecv c := by
  cases c with
  | peek => trivial
  | takePeeked => trivial
  | recv =>
      intro kept next link _ hrecv
      simp [call, Peekable.recv, recordedRecv, hrecv] at h

variable (linkRecv)

/-- Over any link, the calls hand out and show its chunks in order exactly as long as no `recv`
gets another chunk than the one kept at that time. -/
theorem chunks_in_order_iff (link : L) (calls : List PeekCall) :
    AllReached (call linkRecv) InOrder (start link) calls ↔
      AllSteps (call linkRecv) (Undisturbed linkRecv) (start link) calls := by
  have hstart : Kept (start link) := ⟨rfl, List.forall_mem_nil _⟩
  apply allReached_iff_allSteps _ _ _ calls hstart hstart.inOrder
  · intro u c u' hkept _ hcall
    exact (call_inOrder_iff u c u' hkept hcall).1
  · intro u c u' hkept _ hundisturbed hcall
    exact (call_inOrder_iff u c u' hkept hcall).2 hundisturbed
  · intro u c _ _ hstuck
    exact undisturbed_of_stuck hstuck

/-- A link that delivers the chunks of a list and then fails. -/
def listRecv : List (List UInt8) → Option (Except Unit (List UInt8) × List (List UInt8))
  | [] => some (.error (), [])
  | data :: rest => some (.ok data, rest)

/-- The first chunk is looked at, and the second one received. -/
theorem recv_skips_peeked :
    (run (call listRecv) (start [[0], [1]]) [.peek, .recv, .takePeeked]).map
      (fun u => (u.delivered, u.handed)) = some ([[0], [1]], [[1], [0]]) := by
  decide

end PeekUser

end LinkSet
