import LinkSet.Framework.Run
import LinkSet.Messages.Sender
import Mathlib.Data.Prod.Lex

/-!
# Acknowledgements out of order

Acknowledgements are cumulative, so of several the greatest should decide. `remove_slice` moves
the start of an interval that begins after the acknowledged range back to its end; a late
acknowledgement of the same message therefore makes acknowledged bytes outstanding again.
-/

namespace LinkSet

open Framework

namespace SliceManager

/-- A message whose bytes from `start` on are outstanding. -/
def rest (epoch : Epoch) (seq : Nat) (data : List UInt8) (start : Nat) : SliceManager :=
  ⟨epoch, seq, data, SortedMap.empty.insert start (data.length - 1)⟩

private theorem fromVec_eq_rest (epoch : Epoch) (seq : Nat) {data : List UInt8}
    (hdata : data ≠ []) : fromVec epoch seq data = rest epoch seq data 0 := by
  simp [fromVec, rest, hdata]

private theorem rest_injective {epoch : Epoch} {seq : Nat} {data : List UInt8} {start start' : Nat}
    (h : rest epoch seq data start = rest epoch seq data start') : start = start' := by
  have hentries := congrArg (fun s => s.slices.entries) h
  simp only [rest, SortedMap.insert, SortedMap.empty, List.filter_nil, List.nil_append,
    List.cons.injEq, Prod.mk.injEq, and_true] at hentries
  exact hentries

/-- The first outstanding byte of a message of length `n` after an acknowledgement, if the
message is still outstanding. -/
def ackStart (n : Nat) : Option Nat → Nat → Option Nat
  | none, _ => none
  | some start, lastIndex =>
      if lastIndex = 0 then some start
      else if n ≤ lastIndex + 1 then none
      else some (lastIndex + 1)

private theorem ack_rest (epoch : Epoch) (seq : Nat) {data : List UInt8} (hdata : data ≠ [])
    (start : Option Nat) (lastIndex : Nat) :
    ((start.map (rest epoch seq data)).map fun s => s.ack epoch seq lastIndex).filter
        (fun s => !s.isEmpty) =
      (ackStart data.length start lastIndex).map (rest epoch seq data) := by
  have hpos : 0 < data.length := List.length_pos_of_ne_nil hdata
  cases start with
  | none => rfl
  | some start =>
      have hack : (rest epoch seq data start).ack epoch seq lastIndex =
          { rest epoch seq data start with
            slices := removeSlice (rest epoch seq data start).slices 0 lastIndex } := by
        simp [ack, rest]
      have hone : (rest epoch seq data start).slices.entries = [(start, data.length - 1)] := by
        simp [rest, SortedMap.insert, SortedMap.empty]
      simp only [Option.map_some, hack, ackStart]
      by_cases hzero : lastIndex = 0
      · simp [hzero, removeSlice, isEmpty, SortedMap.len, hone, Option.filter_some]
      · rw [if_neg hzero]
        by_cases hall : data.length ≤ lastIndex + 1
        · have hgone := removeSlice_all hone (by omega) (show data.length - 1 ≤ lastIndex by omega)
          simp [isEmpty, SortedMap.len, hgone, if_pos hall, Option.filter_some]
        · have hleft := removeSlice_single hone (show 0 < lastIndex by omega) (by omega)
          have heq : removeSlice (rest epoch seq data start).slices 0 lastIndex =
              SortedMap.empty.insert (lastIndex + 1) (data.length - 1) := by
            apply SortedMap.ext_get
            intro k
            simp [SortedMap.get, hleft, SortedMap.insert, SortedMap.empty]
          rw [if_neg hall, heq]
          simp [isEmpty, SortedMap.len, SortedMap.insert, SortedMap.empty, Option.filter_some, rest]

end SliceManager

namespace MessageManager

/-- What an acknowledgement does to the entry with number `s`. -/
def ackEntry (epoch : Epoch) (s : Nat) (entry : Option SliceManager) (ack : Nat × Nat) :
    Option SliceManager :=
  if s < ack.1 then none
  else if s = ack.1 then (entry.map fun sm => sm.ack epoch s ack.2).filter fun sm => !sm.isEmpty
  else entry

private theorem foldl_recvAck_get (m : MessageManager) (acks : List (Nat × Nat)) (s : Nat) :
    (acks.foldl recvAck m).outgoingSlices.get s =
      acks.foldl (ackEntry m.epoch s) (m.outgoingSlices.get s) := by
  induction acks generalizing m with
  | nil => rfl
  | cons ack acks ih =>
      rw [List.foldl_cons, List.foldl_cons, ih, (m.recvAck_fields ack).1, recvAck_get]
      rfl

/-- The manager after it was given the messages, before any acknowledgement. -/
structure Loaded (epoch : Epoch) (msgs : List (List UInt8)) (m : MessageManager) : Prop where
  epoch_eq : m.epoch = epoch
  nextSeq : m.nextSeq = msgs.length
  entry : ∀ s, m.outgoingSlices.get s = msgs[s]?.map (SliceManager.fromVec epoch s)

/-- One `insert_msg`. -/
def give (m : MessageManager) (data : List UInt8) : Option MessageManager :=
  (m.insertMsg data).map Prod.snd

private theorem Loaded.give {epoch : Epoch} {msgs : List (List UInt8)} {m m' : MessageManager}
    {data : List UInt8} (h : Loaded epoch msgs m) (hm : m.give data = some m') :
    Loaded epoch (msgs ++ [data]) m' := by
  obtain ⟨⟨seq, m1⟩, hi, rfl⟩ := Option.map_eq_some_iff.mp hm
  obtain ⟨_, _, rfl⟩ := insertMsg_eq_some.mp hi
  refine ⟨h.epoch_eq, by simp [h.nextSeq], ?_⟩
  intro s
  simp only [SortedMap.get_insert, h.entry, h.nextSeq, h.epoch_eq]
  by_cases hs : s = msgs.length
  · simp [hs]
  · rw [if_neg hs]
    by_cases hlt : s < msgs.length
    · rw [List.getElem?_append_left hlt]
    · rw [List.getElem?_eq_none (by omega), List.getElem?_eq_none (by simp; omega)]

theorem loaded_of_run {epoch : Epoch} {msgs : List (List UInt8)} {m : MessageManager}
    (hm : run MessageManager.give (new epoch) msgs = some m) : Loaded epoch msgs m := by
  have hgen : ∀ (more done : List (List UInt8)) (m0 m1 : MessageManager), Loaded epoch done m0 →
      run MessageManager.give m0 more = some m1 → Loaded epoch (done ++ more) m1 := by
    intro more
    induction more with
    | nil =>
        intro done m0 m1 h hrun
        cases hrun
        simpa using h
    | cons data more ih =>
        intro done m0 m1 h hrun
        obtain ⟨m2, hm2, hrun⟩ := run_cons.mp hrun
        simpa using ih (done ++ [data]) m2 m1 (h.give hm2) hrun
  exact hgen msgs [] (new epoch) m ⟨rfl, rfl, by simp [new]⟩ hm

end MessageManager

section order

variable {epoch : Epoch} {data : List UInt8} {s : Nat}

/-- The acknowledgements that say something about the message with number `s`. -/
def telling (s : Nat) (acks : List (Nat × Nat)) : List (Nat × Nat) :=
  acks.filter fun a => a.1 = s ∧ a.2 ≠ 0

private theorem foldl_ackEntry (epoch : Epoch) (hdata : data ≠ []) {acks : List (Nat × Nat)}
    (hle : ∀ a ∈ acks, a.1 ≤ s) (start : Option Nat) :
    acks.foldl (MessageManager.ackEntry epoch s) (start.map (SliceManager.rest epoch s data)) =
      ((telling s acks).foldl (fun o a => SliceManager.ackStart data.length o a.2) start).map
        (SliceManager.rest epoch s data) := by
  induction acks generalizing start with
  | nil => rfl
  | cons a acks ih =>
      have hle' : ∀ b ∈ acks, b.1 ≤ s := fun b hb => hle b (by simp [hb])
      have ha := hle a (by simp)
      rw [List.foldl_cons, MessageManager.ackEntry, if_neg (by omega)]
      by_cases hs : s = a.1
      · rw [if_pos hs, SliceManager.ack_rest epoch s hdata start a.2, ih hle']
        by_cases hzero : a.2 = 0
        · have hsame : SliceManager.ackStart data.length start a.2 = start := by
            cases start <;> simp [SliceManager.ackStart, hzero]
          rw [hsame, telling, telling, List.filter_cons_of_neg (by simp [hzero])]
        · rw [telling, telling, List.filter_cons_of_pos (by simp [hs, hzero]), List.foldl_cons]
      · rw [if_neg hs, ih hle', telling, telling, List.filter_cons_of_neg (by simp [Ne.symm hs])]

/-- Nothing is outstanding any more once one acknowledgement covers the message; before, the last
one decides. -/
private theorem foldl_ackStart (n start : Nat) {acks : List (Nat × Nat)}
    (hnonzero : ∀ a ∈ acks, a.2 ≠ 0) :
    acks.foldl (fun o a => SliceManager.ackStart n o a.2) (some start) =
      if ∃ a ∈ acks, n ≤ a.2 + 1 then none
      else some ((acks.getLast?.map fun a => a.2 + 1).getD start) := by
  induction acks using List.reverseRecOn with
  | nil => simp
  | append_singleton acks a ih =>
      have hzero : a.2 ≠ 0 := hnonzero a (by simp)
      rw [List.foldl_append, ih fun b hb => hnonzero b (by simp [hb])]
      by_cases hold : ∃ b ∈ acks, n ≤ b.2 + 1
      · have hnew : ∃ b ∈ acks ++ [a], n ≤ b.2 + 1 := by
          obtain ⟨b, hb, hn⟩ := hold
          exact ⟨b, by simp [hb], hn⟩
        rw [if_pos hold, if_pos hnew]
        rfl
      · rw [if_neg hold]
        simp only [List.foldl_cons, List.foldl_nil, SliceManager.ackStart, if_neg hzero]
        by_cases hall : n ≤ a.2 + 1
        · rw [if_pos hall, if_pos ⟨a, by simp, hall⟩]
        · have hnew : ¬ ∃ b ∈ acks ++ [a], n ≤ b.2 + 1 := by
            intro h
            obtain ⟨b, hb, hn⟩ := h
            rcases List.mem_append.mp hb with hb | hb
            · exact hold ⟨b, hb, hn⟩
            · rw [List.mem_singleton] at hb
              exact hall (hb ▸ hn)
          rw [if_neg hall, if_neg hnew]
          simp

/-- The greatest acknowledgement decides: it acknowledges no byte, or all of its message, or it
is the last one that tells something about its message. -/
def Decides (msgs : List (List UInt8)) (acks : List (Nat × Nat)) (top : Nat × Nat) : Prop :=
  top.2 = 0 ∨ (∀ d, msgs[top.1]? = some d → d.length ≤ top.2 + 1) ∨
    (telling top.1 acks).getLast? = some top

variable {acks : List (Nat × Nat)} {top : Nat × Nat}

private theorem seq_le_of_top (htop : ∀ a ∈ acks, toLex a ≤ toLex top) :
    ∀ a ∈ acks, a.1 ≤ top.1 := by
  intro a ha
  rcases Prod.Lex.toLex_le_toLex.mp (htop a ha) with hlt | heq
  · exact Nat.le_of_lt hlt
  · exact Nat.le_of_eq heq.1

private theorem index_le_of_top (htop : ∀ a ∈ acks, toLex a ≤ toLex top) :
    ∀ a ∈ acks, a.1 = top.1 → a.2 ≤ top.2 := by
  intro a ha hseq
  rcases Prod.Lex.toLex_le_toLex.mp (htop a ha) with hlt | heq
  · exact absurd hseq (Nat.ne_of_lt hlt)
  · exact heq.2

private theorem foldl_ackEntry_none (epoch : Epoch) (s : Nat) (acks : List (Nat × Nat)) :
    acks.foldl (MessageManager.ackEntry epoch s) none = none := by
  induction acks with
  | nil => rfl
  | cons a acks ih =>
      have hnone : MessageManager.ackEntry epoch s none a = none := by
        simp [MessageManager.ackEntry]
      rw [List.foldl_cons, hnone, ih]

private theorem foldl_ackEntry_other (hmem : top ∈ acks) (hle : ∀ a ∈ acks, a.1 ≤ top.1)
    (hs : s ≠ top.1) (entry : Option SliceManager) :
    acks.foldl (MessageManager.ackEntry epoch s) entry =
      MessageManager.ackEntry epoch s entry top := by
  rcases Nat.lt_or_gt_of_ne hs with hlow | hhigh
  · obtain ⟨pre, post, rfl⟩ := List.append_of_mem hmem
    rw [List.foldl_append, List.foldl_cons]
    simp only [MessageManager.ackEntry, if_pos hlow]
    exact foldl_ackEntry_none epoch s post
  · have hkeep : ∀ (l : List (Nat × Nat)), (∀ a ∈ l, a.1 ≤ top.1) →
        l.foldl (MessageManager.ackEntry epoch s) entry = entry := by
      intro l hl
      induction l with
      | nil => rfl
      | cons a l ih =>
          have ha := hl a (by simp)
          rw [List.foldl_cons, MessageManager.ackEntry, if_neg (by omega), if_neg (by omega)]
          exact ih fun b hb => hl b (by simp [hb])
    rw [hkeep acks hle, MessageManager.ackEntry, if_neg (by omega), if_neg hs]

/-- Of the message of the greatest acknowledgement the same is left exactly when that one
decides. -/
theorem foldl_ackEntry_top_iff (hdata : data ≠ []) (hmem : top ∈ acks)
    (htop : ∀ a ∈ acks, toLex a ≤ toLex top) :
    acks.foldl (MessageManager.ackEntry epoch top.1) (some (SliceManager.rest epoch top.1 data 0)) =
        MessageManager.ackEntry epoch top.1 (some (SliceManager.rest epoch top.1 data 0)) top ↔
      top.2 = 0 ∨ data.length ≤ top.2 + 1 ∨ (telling top.1 acks).getLast? = some top := by
  have htelling : ∀ a ∈ telling top.1 acks, a ∈ acks ∧ a.1 = top.1 ∧ a.2 ≠ 0 := by
    intro a ha
    obtain ⟨hin, hcond⟩ := List.mem_filter.mp ha
    exact ⟨hin, by simpa using hcond⟩
  have hleft := foldl_ackEntry epoch hdata (seq_le_of_top htop) (some 0)
  have hright := SliceManager.ack_rest epoch top.1 hdata (some 0) top.2
  rw [foldl_ackStart data.length 0 fun a ha => (htelling a ha).2.2] at hleft
  simp only [Option.map_some] at hleft hright
  rw [hleft, MessageManager.ackEntry, if_neg (Nat.lt_irrefl _), if_pos rfl, Option.map_some, hright]
  by_cases hzero : top.2 = 0
  · have hnone : telling top.1 acks = [] := by
      apply List.eq_nil_iff_forall_not_mem.mpr
      intro a ha
      obtain ⟨hin, hseq, hne⟩ := htelling a ha
      have := index_le_of_top htop a hin hseq
      omega
    simp [hnone, hzero, SliceManager.ackStart]
  · have htold : top ∈ telling top.1 acks := List.mem_filter.mpr ⟨hmem, by simp [hzero]⟩
    by_cases hall : data.length ≤ top.2 + 1
    · rw [if_pos ⟨top, htold, hall⟩]
      simp [SliceManager.ackStart, hzero, hall]
    · have hnotall : ¬ ∃ a ∈ telling top.1 acks, data.length ≤ a.2 + 1 := by
        intro h
        obtain ⟨a, ha, hn⟩ := h
        obtain ⟨hin, hseq, _⟩ := htelling a ha
        have := index_le_of_top htop a hin hseq
        omega
      rw [if_neg hnotall]
      obtain ⟨last, hlast⟩ : ∃ last, (telling top.1 acks).getLast? = some last :=
        Option.isSome_iff_exists.mp (List.getLast?_isSome.mpr (List.ne_nil_of_mem htold))
      simp only [SliceManager.ackStart, hzero, hall, if_false, hlast, Option.map_some,
        Option.getD_some, false_or, Option.some.injEq]
      constructor
      · intro h
        have hindex := SliceManager.rest_injective h
        have hseq := (htelling last (List.mem_of_getLast? hlast)).2.1
        exact Prod.ext hseq (by omega)
      · intro h
        rw [h]

/-- Some acknowledgements leave the same outstanding as the greatest of them alone exactly when
that one decides. -/
theorem acks_eq_greatest_iff (epoch : Epoch) (msgs : List (List UInt8)) (hmsgs : ∀ d ∈ msgs, d ≠ [])
    (m : MessageManager) (hm : run MessageManager.give (MessageManager.new epoch) msgs = some m)
    (acks : List (Nat × Nat)) (top : Nat × Nat) (hmem : top ∈ acks)
    (htop : ∀ a ∈ acks, toLex a ≤ toLex top) :
    (acks.foldl MessageManager.recvAck m).outgoingSlices = (m.recvAck top).outgoingSlices ↔
      Decides msgs acks top := by
  have hloaded := MessageManager.loaded_of_run hm
  have hfold := MessageManager.foldl_recvAck_get m acks
  have hone := MessageManager.foldl_recvAck_get m [top]
  simp only [List.foldl_cons, List.foldl_nil] at hone
  have hother : ∀ s, s ≠ top.1 → (acks.foldl MessageManager.recvAck m).outgoingSlices.get s =
      (m.recvAck top).outgoingSlices.get s := by
    intro s hs
    rw [hfold, hone]
    exact foldl_ackEntry_other hmem (seq_le_of_top htop) hs _
  have hsame : (acks.foldl MessageManager.recvAck m).outgoingSlices =
      (m.recvAck top).outgoingSlices ↔
      (acks.foldl MessageManager.recvAck m).outgoingSlices.get top.1 =
        (m.recvAck top).outgoingSlices.get top.1 := by
    constructor
    · intro h
      rw [h]
    · intro h
      apply SortedMap.ext_get
      intro s
      by_cases hs : s = top.1
      · rw [hs, h]
      · exact hother s hs
  rw [hsame, hfold, hone, hloaded.entry, hloaded.epoch_eq, Decides]
  cases hget : msgs[top.1]? with
  | none =>
      simp [foldl_ackEntry_none, MessageManager.ackEntry]
  | some d =>
      have hd := hmsgs d (List.mem_of_getElem? hget)
      rw [Option.map_some, SliceManager.fromVec_eq_rest epoch top.1 hd,
        foldl_ackEntry_top_iff hd hmem htop]
      simp

/-- Two acknowledgements of one message in their order. -/
theorem acks_eq_greatest_iff_rising :
    ∃ m, run MessageManager.give (MessageManager.new Epoch.one) [[1, 2, 3, 4]] = some m ∧
      ([(0, 1), (0, 2)].foldl MessageManager.recvAck m).outgoingSlices =
        (m.recvAck (0, 2)).outgoingSlices :=
  ⟨_, rfl, (acks_eq_greatest_iff Epoch.one [[1, 2, 3, 4]] (by decide) _ rfl [(0, 1), (0, 2)] (0, 2)
    (by decide) (by decide)).mpr (Or.inr (Or.inr rfl))⟩

/-- The smaller of two acknowledgements arrives last, and the byte at index 2 is outstanding
again. -/
theorem late_ack_reopens :
    ∃ m, run MessageManager.give (MessageManager.new Epoch.one) [[1, 2, 3, 4]] = some m ∧
      ((m.recvAck (0, 2)).outgoingSlices.get 0).map (fun sm => sm.slices.entries) =
        some [(3, 3)] ∧
      (([(0, 2), (0, 1)].foldl MessageManager.recvAck m).outgoingSlices.get 0).map
        (fun sm => sm.slices.entries) = some [(2, 3)] ∧
      ([(0, 2), (0, 1)].foldl MessageManager.recvAck m).outgoingSlices ≠
        (m.recvAck (0, 2)).outgoingSlices := by
  refine ⟨_, rfl, rfl, rfl, ?_⟩
  intro h
  have hentries := congrArg (fun o => (o.get 0).map fun sm => sm.slices.entries) h
  exact absurd hentries (by decide)

end order

end LinkSet
