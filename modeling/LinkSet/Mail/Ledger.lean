import LinkSet.Core.Handlers
import LinkSet.Messages.Sender

/-!
# The ledger of submitted messages

A submitted message waits in a queue or is inserted into the manager of a session. The ledger
reads from the record of a run which messages the current manager was given, in their order;
every insertion and every slice on a link is checked against it.
-/

namespace LinkSet

open Framework

/-- The epoch of the current manager and the numbers of the messages inserted into it. -/
structure Ledger where
  epoch : Option Epoch
  tags : List Nat

def Ledger.enter (l : Ledger) : Effect → Ledger
  | .newManager e => ⟨some e, []⟩
  | .inserted tag _ _ => ⟨l.epoch, l.tags ++ [tag]⟩
  | .toCtrl _ => l
  | .toLink _ _ => l

def ledger (record : List Effect) : Ledger := record.foldl Ledger.enter ⟨none, []⟩

private theorem ledger_append_singleton (record : List Effect) (eff : Effect) :
    ledger (record ++ [eff]) = (ledger record).enter eff := by
  simp only [ledger, List.foldl_append, List.foldl_cons, List.foldl_nil]

def insertedTags (record : List Effect) : List Nat :=
  record.filterMap fun
    | .inserted tag _ _ => some tag
    | _ => none

theorem insertedTags_append (r t : List Effect) :
    insertedTags (r ++ t) = insertedTags r ++ insertedTags t := List.filterMap_append

private theorem mem_insertedTags_of_ledger {record : List Effect} {tag : Nat}
    (h : tag ∈ (ledger record).tags) : tag ∈ insertedTags record := by
  induction record using List.reverseRecOn with
  | nil => simp [ledger] at h
  | append_singleton record eff ih =>
      rw [ledger_append_singleton] at h
      rw [insertedTags_append, List.mem_append]
      cases eff with
      | newManager e => simp [Ledger.enter] at h
      | inserted t e seq =>
          simp only [Ledger.enter, List.mem_append, List.mem_singleton] at h
          rcases h with h | h
          · exact Or.inl (ih h)
          · exact Or.inr (by simp [insertedTags, h])
      | toCtrl msg => exact Or.inl (ih h)
      | toLink id frame => exact Or.inl (ih h)

/-- The messages submitted, with the epochs they were submitted for. -/
abbrev Submitted := List (Payload × Option Epoch)

def Submitted.bytesOf (subs : Submitted) (tag : Nat) : List UInt8 :=
  (subs[tag]?.map fun s => s.1.bytes).getD []

/-- What the ledger before an entry of the record says about it. A message goes into a manager of
the epoch it was submitted for, if any, and a slice is a piece of the message that the current
manager has under its number. -/
def Accounted (subs : Submitted) (l : Ledger) : Effect → Prop
  | .inserted tag e seq =>
      l.epoch = some e ∧ seq = l.tags.length ∧
        ∃ payload ep, subs[tag]? = some (payload, ep) ∧ (ep = none ∨ ep = some e)
  | .toLink _ (.msgSlice epoch seq seqLen firstIndex data) =>
      ∃ e tag payload ep, l.epoch = some e ∧ epoch = e.toInt ∧ l.tags[seq]? = some tag ∧
        subs[tag]? = some (payload, ep) ∧ seqLen = payload.bytes.length ∧
        IsPiece payload.bytes firstIndex data
  | _ => True

private theorem Accounted.mono {subs more : Submitted} {l : Ledger} {eff : Effect}
    (h : Accounted subs l eff) : Accounted (subs ++ more) l eff := by
  have hget : ∀ {tag : Nat} {s}, subs[tag]? = some s → (subs ++ more)[tag]? = some s := by
    intro tag s hs
    rw [List.getElem?_append_left (List.getElem?_eq_some_iff.mp hs).1, hs]
  cases eff with
  | newManager e => trivial
  | toCtrl msg => trivial
  | inserted tag e seq =>
      obtain ⟨hepoch, hseq, payload, ep, hsub, hep⟩ := h
      exact ⟨hepoch, hseq, payload, ep, hget hsub, hep⟩
  | toLink id frame =>
      cases frame with
      | msgSlice epoch seq seqLen firstIndex data =>
          obtain ⟨e, tag, payload, ep, hepoch, he, htag, hsub, hpiece⟩ := h
          exact ⟨e, tag, payload, ep, hepoch, he, htag, hget hsub, hpiece⟩
      | _ => trivial

/-- Every entry of the record is accounted for. -/
def AllAccounted (subs : Submitted) (record : List Effect) : Prop :=
  ∀ pre eff post, record = pre ++ eff :: post → Accounted subs (ledger pre) eff

theorem allAccounted_nil (subs : Submitted) : AllAccounted subs [] := by
  intro pre eff post h
  simp at h

theorem AllAccounted.of_append {subs : Submitted} {record later : List Effect}
    (h : AllAccounted subs (record ++ later)) : AllAccounted subs record := by
  intro pre eff post hsplit
  exact h pre eff (post ++ later) (by simp [hsplit])

private theorem allAccounted_append_singleton {subs : Submitted} {record : List Effect}
    {eff : Effect} :
    AllAccounted subs (record ++ [eff]) ↔
      AllAccounted subs record ∧ Accounted subs (ledger record) eff := by
  constructor
  · intro h
    exact ⟨h.of_append, h record eff [] rfl⟩
  · intro h pre x post hx
    rcases List.eq_nil_or_concat post with rfl | ⟨init, last, rfl⟩
    · obtain ⟨rfl, hlast⟩ := List.append_inj' hx rfl
      cases hlast
      exact h.2
    · have hcut : record ++ [eff] = (pre ++ x :: init) ++ [last] := by simpa using hx
      obtain ⟨rfl, _⟩ := List.append_inj' hcut rfl
      exact h.1 pre x init rfl

theorem AllAccounted.inserted_of_ledger {subs : Submitted} {record : List Effect}
    (h : AllAccounted subs record) {e : Epoch} {tag seq : Nat}
    (hepoch : (ledger record).epoch = some e) (htag : (ledger record).tags[seq]? = some tag) :
    .inserted tag e seq ∈ record := by
  induction record using List.reverseRecOn with
  | nil => simp [ledger] at htag
  | append_singleton record eff ih =>
      obtain ⟨hall, hacc⟩ := allAccounted_append_singleton.mp h
      rw [ledger_append_singleton] at hepoch htag
      rw [List.mem_append]
      cases eff with
      | newManager e' => simp [Ledger.enter] at htag
      | toCtrl msg => exact Or.inl (ih hall hepoch htag)
      | toLink id frame => exact Or.inl (ih hall hepoch htag)
      | inserted t e' seq' =>
          obtain ⟨hsame, hseq, _⟩ := hacc
          simp only [Ledger.enter] at hepoch htag
          by_cases hlt : seq < (ledger record).tags.length
          · rw [List.getElem?_append_left hlt] at htag
            exact Or.inl (ih hall hepoch htag)
          · obtain ⟨hbound, hget⟩ := List.getElem?_eq_some_iff.mp htag
            simp only [List.length_append, List.length_singleton] at hbound
            obtain rfl : seq = (ledger record).tags.length := by omega
            simp only [List.getElem_concat_length] at hget
            rw [hsame] at hepoch
            cases hepoch
            rw [hget, hseq]
            exact Or.inr (by simp)

/-- An entry that neither makes a manager nor inserts nor carries a message. -/
def Effect.silent : Effect → Bool
  | .toCtrl _ => true
  | .toLink _ (.msgSlice _ _ _ _ _) => false
  | .toLink _ _ => true
  | .newManager _ => false
  | .inserted _ _ _ => false

private theorem Effect.silent_spec {eff : Effect} (h : eff.silent = true) (subs : Submitted)
    (l : Ledger) : Accounted subs l eff ∧ l.enter eff = l ∧ insertedTags [eff] = [] := by
  cases eff with
  | toCtrl msg => exact ⟨trivial, rfl, rfl⟩
  | newManager e => cases h
  | inserted tag e seq => cases h
  | toLink id frame =>
      cases frame with
      | msgSlice epoch seq seqLen firstIndex data => cases h
      | _ => exact ⟨trivial, rfl, rfl⟩

/-- Where the messages of a state are: the queue, and the session with its manager. -/
structure Mail where
  queue : List Submission
  session : Option (Epoch × MessageManager)

/-- A property of managers that holds of new ones and that the sending half cannot break. -/
structure Lasts (P : MessageManager → Prop) : Prop where
  new : ∀ e, P (MessageManager.new e)
  insertMsg : ∀ {m data seq m'}, m.insertMsg data = some (seq, m') → P m → P m'
  recvAck : ∀ {m} ack, P m → P (m.recvAck ack)

/-- Receiving the frame keeps the property. -/
def LinkProtocol.Keeps (P : MessageManager → Prop) : LinkProtocol → Prop
  | .msgSlice _ seq seqLen firstIndex data => ∀ m b m1 out m2,
      m.recv seq firstIndex seqLen data = some (b, m1) → m1.takeRecvd = some (out, m2) → P m → P m2
  | _ => True

/-- The messages waiting and inserted are different ones, every entry of the record is accounted
for, and the current manager holds what the ledger says and has the property `P`. -/
structure Mailed (P : MessageManager → Prop) (subs : Submitted) (mail : Mail)
    (record : List Effect) : Prop where
  accounted : AllAccounted subs record
  once : (insertedTags record ++ mail.queue.map Submission.tag).Nodup
  known : ∀ tag ∈ insertedTags record, tag < subs.length
  queued : ∀ msg ∈ mail.queue, subs[msg.tag]? = some (msg.payload, none)
  kept : ∀ e m, mail.session = some (e, m) → P m ∧ m.epoch = e ∧
    (ledger record).epoch = some e ∧ Sending m ((ledger record).tags.map subs.bytesOf)

namespace Mailed

variable {P : MessageManager → Prop} {subs : Submitted} {mail : Mail} {record : List Effect}

theorem silent_iff {eff : Effect} (h : eff.silent = true) :
    Mailed P subs mail (record ++ [eff]) ↔ Mailed P subs mail record := by
  obtain ⟨hacc, henter, htags⟩ := Effect.silent_spec h subs (ledger record)
  have hledger : ledger (record ++ [eff]) = ledger record := by
    rw [ledger_append_singleton, henter]
  have hinserted : insertedTags (record ++ [eff]) = insertedTags record := by
    rw [insertedTags_append, htags, List.append_nil]
  constructor
  · intro hm
    exact {
      accounted := (allAccounted_append_singleton.mp hm.accounted).1
      once := hinserted ▸ hm.once
      known := hinserted ▸ hm.known
      queued := hm.queued
      kept := hledger ▸ hm.kept }
  · intro hm
    exact {
      accounted := allAccounted_append_singleton.mpr ⟨hm.accounted, hacc⟩
      once := hinserted.symm ▸ hm.once
      known := hinserted.symm ▸ hm.known
      queued := hm.queued
      kept := hledger.symm ▸ hm.kept }

theorem append_silent_iff {delta : List Effect} (h : ∀ eff ∈ delta, eff.silent = true) :
    Mailed P subs mail (record ++ delta) ↔ Mailed P subs mail record := by
  induction delta using List.reverseRecOn with
  | nil => rw [List.append_nil]
  | append_singleton delta eff ih =>
      rw [← List.append_assoc, silent_iff (h eff (by simp))]
      exact ih fun x hx => h x (by simp [hx])

private theorem ledger_lt (h : Mailed P subs mail record) {tag : Nat}
    (ht : tag ∈ (ledger record).tags) :
    tag < subs.length := h.known tag (mem_insertedTags_of_ledger ht)

theorem submit (h : Mailed P subs mail record) (s : Payload × Option Epoch) :
    Mailed P (subs ++ [s]) mail record where
  accounted := fun pre eff post heq => (h.accounted pre eff post heq).mono
  once := h.once
  known := by
    intro tag htag
    have hlt := h.known tag htag
    simp only [List.length_append, List.length_singleton]
    omega
  queued := by
    intro msg hmsg
    have hsub := h.queued msg hmsg
    rw [List.getElem?_append_left (List.getElem?_eq_some_iff.mp hsub).1, hsub]
  kept := by
    intro e m hm
    obtain ⟨hP, hepoch, hledger, hsend⟩ := h.kept e m hm
    have hbytes : (ledger record).tags.map (Submitted.bytesOf (subs ++ [s])) =
        (ledger record).tags.map subs.bytesOf := by
      apply List.map_congr_left
      intro tag htag
      simp only [Submitted.bytesOf, List.getElem?_append_left (h.ledger_lt htag)]
    exact ⟨hP, hepoch, hledger, hbytes ▸ hsend⟩

end Mailed

/-- A submitted message that is neither queued nor inserted yet. -/
structure Held (subs : Submitted) (mail : Mail) (record : List Effect) (msg : Submission)
    (ep : Option Epoch) : Prop where
  submitted : subs[msg.tag]? = some (msg.payload, ep)
  fresh : msg.tag ∉ insertedTags record
  unqueued : msg.tag ∉ mail.queue.map Submission.tag

private theorem Held.not_mem {subs : Submitted} {mail : Mail} {record : List Effect}
    {msg : Submission} {ep : Option Epoch} (h : Held subs mail record msg ep) :
    msg.tag ∉ insertedTags record ++ mail.queue.map Submission.tag := by
  simp only [List.mem_append, not_or]
  exact ⟨h.fresh, h.unqueued⟩

/-! The moves of messages. -/

namespace Mailed

variable {P : MessageManager → Prop} {subs : Submitted} {queue : List Submission}
  {session : Option (Epoch × MessageManager)} {e : Epoch} {m m' : MessageManager}
  {record : List Effect} {msg : Submission} {ep : Option Epoch}

theorem clearQueue (h : Mailed P subs ⟨queue, session⟩ record) :
    Mailed P subs ⟨[], session⟩ record where
  accounted := h.accounted
  once := by
    have honce := (List.nodup_append.mp h.once).1
    simpa using honce
  known := h.known
  queued := by simp
  kept := h.kept

theorem endSession (h : Mailed P subs ⟨queue, session⟩ record) :
    Mailed P subs ⟨queue, none⟩ record where
  accounted := h.accounted
  once := h.once
  known := h.known
  queued := h.queued
  kept := by simp

theorem replace (h : Mailed P subs ⟨queue, some (e, m)⟩ record) (hP : P m → P m')
    (hepoch : m'.epoch = m.epoch) (hsend : ∀ datas, Sending m datas → Sending m' datas) :
    Mailed P subs ⟨queue, some (e, m')⟩ record where
  accounted := h.accounted
  once := h.once
  known := h.known
  queued := h.queued
  kept := by
    intro e' m1 hm
    cases hm
    obtain ⟨hm, he, hledger, hold⟩ := h.kept e m rfl
    exact ⟨hP hm, hepoch.trans he, hledger, hsend _ hold⟩

theorem enqueue (h : Mailed P subs ⟨queue, session⟩ record)
    (hheld : Held subs ⟨queue, session⟩ record msg none) :
    Mailed P subs ⟨queue ++ [msg], session⟩ record where
  accounted := h.accounted
  once := by
    simp only [List.map_append, List.map_cons, List.map_nil, ← List.append_assoc]
    rw [← List.concat_eq_append]
    exact List.Nodup.concat hheld.not_mem h.once
  known := h.known
  queued := by
    intro x hx
    simp only [List.mem_append, List.mem_singleton] at hx
    rcases hx with hx | rfl
    · exact h.queued x hx
    · exact hheld.submitted
  kept := h.kept

theorem dequeue (h : Mailed P subs ⟨msg :: queue, session⟩ record) :
    Mailed P subs ⟨queue, session⟩ record ∧ Held subs ⟨queue, session⟩ record msg none := by
  have hperm : (insertedTags record ++ (msg :: queue).map Submission.tag).Perm
      (msg.tag :: (insertedTags record ++ queue.map Submission.tag)) := List.perm_middle
  have honce := h.once
  rw [hperm.nodup_iff, List.nodup_cons, List.mem_append, not_or] at honce
  constructor
  · exact {
      accounted := h.accounted
      once := honce.2
      known := h.known
      queued := fun x hx => h.queued x (by simp [hx])
      kept := h.kept }
  · exact ⟨h.queued msg (by simp), honce.1.1, honce.1.2⟩

theorem newManager (h : Mailed P subs ⟨queue, none⟩ record) (e : Epoch)
    (hP : P (MessageManager.new e)) :
    Mailed P subs ⟨queue, some (e, MessageManager.new e)⟩ (record ++ [.newManager e]) := by
  have htags : insertedTags (record ++ [.newManager e]) = insertedTags record := by
    simp [insertedTags]
  exact {
    accounted := allAccounted_append_singleton.mpr ⟨h.accounted, trivial⟩
    once := htags.symm ▸ h.once
    known := htags.symm ▸ h.known
    queued := h.queued
    kept := by
      intro e' m1 hm
      cases hm
      rw [ledger_append_singleton]
      exact ⟨hP, rfl, rfl, sending_new e⟩ }

theorem insertMsg (h : Mailed P subs ⟨queue, some (e, m)⟩ record)
    (hheld : Held subs ⟨queue, some (e, m)⟩ record msg ep) (hep : ep = none ∨ ep = some e)
    {seq : Nat} (hi : m.insertMsg msg.payload.bytes = some (seq, m')) (hP : P m → P m') :
    Mailed P subs ⟨queue, some (e, m')⟩ (record ++ [.inserted msg.tag m'.epoch seq]) := by
  obtain ⟨hm, he, hledger, hsend⟩ := h.kept e m rfl
  obtain ⟨_, hseq, hm'⟩ := MessageManager.insertMsg_eq_some.mp hi
  have he' : m'.epoch = e := by
    rw [hm']
    exact he
  have htags : insertedTags (record ++ [.inserted msg.tag m'.epoch seq]) =
      insertedTags record ++ [msg.tag] := by
    rw [insertedTags_append]
    rfl
  have hbytes : subs.bytesOf msg.tag = msg.payload.bytes := by
    simp [Submitted.bytesOf, hheld.submitted]
  exact {
    accounted := by
      apply allAccounted_append_singleton.mpr
      refine ⟨h.accounted, he'.symm ▸ hledger, ?_, msg.payload, ep, hheld.submitted, he'.symm ▸ hep⟩
      rw [hseq, hsend.nextSeq, List.length_map]
    once := by
      have hperm : (insertedTags record ++ [msg.tag] ++ queue.map Submission.tag).Perm
          (msg.tag :: (insertedTags record ++ queue.map Submission.tag)) := by
        rw [List.append_assoc]
        exact List.perm_middle
      rw [htags, hperm.nodup_iff, List.nodup_cons]
      exact ⟨hheld.not_mem, h.once⟩
    known := by
      intro tag htag
      simp only [htags, List.mem_append, List.mem_singleton] at htag
      rcases htag with htag | rfl
      · exact h.known tag htag
      · exact (List.getElem?_eq_some_iff.mp hheld.submitted).1
    queued := h.queued
    kept := by
      intro e1 m1 heq
      cases heq
      rw [ledger_append_singleton]
      refine ⟨hP hm, he', hledger, ?_⟩
      simp only [Ledger.enter, List.map_append, List.map_cons, List.map_nil, hbytes]
      exact hsend.insertMsg hi }

private theorem ledger_wire (record : List Effect) (frames : List Sent) :
    ledger (record ++ wire frames) = ledger record ∧
      insertedTags (record ++ wire frames) = insertedTags record := by
  induction frames generalizing record with
  | nil => simp [wire]
  | cons f frames ih =>
      have hcons : record ++ wire (f :: frames) =
          (record ++ [.toLink f.1 f.2]) ++ wire frames := by simp [wire]
      have hledger : ledger (record ++ [.toLink f.1 f.2]) = ledger record :=
        ledger_append_singleton _ _
      have htags : insertedTags (record ++ [.toLink f.1 f.2]) = insertedTags record := by
        simp [insertedTags]
      rw [hcons, (ih _).1, (ih _).2, hledger, htags]
      exact ⟨rfl, rfl⟩

private theorem wire {mail : Mail} (h : Mailed P subs mail record) (frames : List Sent)
    (hacc : ∀ f ∈ frames, Accounted subs (ledger record) (.toLink f.1 f.2)) :
    Mailed P subs mail (record ++ LinkSet.wire frames) := by
  obtain ⟨hledger, htags⟩ := ledger_wire record frames
  exact {
    accounted := by
      induction frames using List.reverseRecOn with
      | nil => simpa [LinkSet.wire] using h.accounted
      | append_singleton frames f ih =>
          have hwire : record ++ LinkSet.wire (frames ++ [f]) =
              (record ++ LinkSet.wire frames) ++ [.toLink f.1 f.2] := by simp [LinkSet.wire]
          obtain ⟨hledger', htags'⟩ := ledger_wire record frames
          rw [hwire, allAccounted_append_singleton, hledger']
          exact ⟨ih (fun x hx => hacc x (by simp [hx])) hledger' htags', hacc f (by simp)⟩
    once := htags.symm ▸ h.once
    known := htags.symm ▸ h.known
    queued := h.queued
    kept := hledger.symm ▸ h.kept }

theorem sendSlices (h : Mailed P subs ⟨queue, some (e, m)⟩ record) {k : Nat} {sm : SliceManager}
    (hget : m.outgoingSlices.get k = some sm) {links : LinkManager} {out : Outcome}
    (hout : links.sendSlices sm = some out) :
    Mailed P subs ⟨queue, some (e, m)⟩ (record ++ LinkSet.wire out.frames) := by
  obtain ⟨_, he, hledger, hsend⟩ := h.kept e m rfl
  obtain ⟨hdata, hseq, hepoch⟩ := hsend.entry k sm hget
  rw [List.getElem?_map] at hdata
  obtain ⟨tag, htag, hbytes⟩ := Option.map_eq_some_iff.mp hdata
  have hlt := h.ledger_lt (List.mem_of_getElem? htag)
  have hsub : subs[tag]? = some (subs[tag].1, subs[tag].2) := List.getElem?_eq_getElem hlt
  have hpayload : sm.data = subs[tag].1.bytes := by
    simp [← hbytes, Submitted.bytesOf, hlt]
  apply h.wire
  intro f hf
  obtain ⟨firstIndex, piece, hframe, hpiece⟩ := LinkManager.sendSlices_pieces hout f hf
  rw [hframe]
  rw [← hseq] at htag
  exact ⟨e, tag, subs[tag].1, subs[tag].2, hledger, by rw [hepoch, he], htag, hsub,
    by rw [hpayload], hpayload ▸ hpiece⟩

end Mailed

end LinkSet
