import LinkSet.Framework.Run
import LinkSet.Links.Manager

/-!
# Traffic over the links

A link manager under any sequence of its operations, with everything it has handed to a link.
No operation changes the id or the carrier of an entry, and each hands a frame to entries that
it finds in the manager; what holds of a whole run follows from these two facts.
-/

namespace LinkSet

open Framework

/-- The operations of a `LinkManager`; `drop` is the end of the state that owns it. -/
inductive LinkManager.Op where
  | addLink (link : LinkEntry)
  | evictLink (id : Nat)
  | sendProto (proto : LinkProtocol)
  | sendSlices (sliceMgr : SliceManager)
  | pingAll (now : Nat)
  | pong (id : Nat)
  | endPing (id now : Nat)
  | upkeep
  | drop

/-- The links and the frames handed to them so far. -/
structure Traffic where
  links : LinkManager
  frames : List Sent

def Traffic.op (t : Traffic) : LinkManager.Op → Option Traffic
  | .addLink link => some { t with links := t.links.addLink link }
  | .evictLink id => some { t with links := t.links.evictLink id }
  | .sendProto proto =>
      let out := t.links.sendProto proto
      some ⟨out.links, t.frames ++ out.frames⟩
  | .sendSlices sliceMgr =>
      (t.links.sendSlices sliceMgr).map fun out => ⟨out.links, t.frames ++ out.frames⟩
  | .pingAll now => some ⟨(t.links.pingAll now).1, t.frames ++ (t.links.pingAll now).2⟩
  | .pong id => some ⟨(t.links.pong id).1, t.frames ++ (t.links.pong id).2⟩
  | .endPing id now => some { t with links := t.links.endPing id now }
  | .upkeep => some { t with links := t.links.upkeep }
  | .drop => some { t with links := LinkManager.new }

/-- The same carrier under the same id. -/
structure LinkEntry.SameLink (e e' : LinkEntry) : Prop where
  id : e'.id = e.id
  link : e'.link = e.link

namespace LinkEntry.SameLink

variable {e e' e'' : LinkEntry}

theorem refl (e : LinkEntry) : e.SameLink e := ⟨rfl, rfl⟩

theorem trans (h : e.SameLink e') (h' : e'.SameLink e'') : e.SameLink e'' :=
  ⟨h'.id.trans h.id, h'.link.trans h.link⟩

theorem endPing (e : LinkEntry) (now : Nat) : e.SameLink (e.endPing now) := by
  unfold LinkEntry.endPing
  split
  · exact refl e
  · exact ⟨rfl, rfl⟩

theorem sendPing (e : LinkEntry) (now : Nat) : e.SameLink (e.sendPing now) :=
  (endPing e now).trans ⟨rfl, rfl⟩

end LinkEntry.SameLink

namespace LinkEntry

/-- What the checks and the pings look at, besides the number of calls so far. -/
structure Alike (e e' : LinkEntry) : Prop extends e.SameLink e' where
  ping : e'.ping = e.ping
  recent : e'.recent = e.recent

theorem Alike.refl (e : LinkEntry) : e.Alike e := ⟨.refl e, rfl, rfl⟩

theorem Alike.trans {e e' e'' : LinkEntry} (h : e.Alike e') (h' : e'.Alike e'') : e.Alike e'' :=
  ⟨h.toSameLink.trans h'.toSameLink, h'.ping.trans h.ping, h'.recent.trans h.recent⟩

end LinkEntry

namespace LinkManager

private theorem mem_dropUnusable {l : List LinkEntry} {e' : LinkEntry} (h : e' ∈ dropUnusable l) :
    ∃ e ∈ l, e.SameLink e' := by
  induction l with
  | nil => simp [dropUnusable] at h
  | cons e l ih =>
      rw [dropUnusable] at h
      split at h
      · obtain ⟨e0, hmem, hsame⟩ := ih h
        exact ⟨e0, List.mem_cons_of_mem _ hmem, hsame⟩
      · rcases List.mem_cons.mp h with rfl | hmem
        · exact ⟨e, by simp, ⟨rfl, rfl⟩⟩
        · exact ⟨e', by simp [hmem], .refl e'⟩

private theorem mem_modifyFirst {id : Nat} {f : LinkEntry → LinkEntry}
    (hf : ∀ e : LinkEntry, e.SameLink (f e)) {l : List LinkEntry} {e' : LinkEntry}
    (h : e' ∈ modifyFirst id f l) : ∃ e ∈ l, e.SameLink e' := by
  induction l with
  | nil => simp [modifyFirst] at h
  | cons e l ih =>
      rw [modifyFirst] at h
      split at h
      · rcases List.mem_cons.mp h with rfl | hmem
        · exact ⟨e, by simp, hf e⟩
        · exact ⟨e', by simp [hmem], .refl e'⟩
      · rcases List.mem_cons.mp h with rfl | hmem
        · exact ⟨e', by simp, .refl e'⟩
        · obtain ⟨e0, hmem, hsame⟩ := ih hmem
          exact ⟨e0, by simp [hmem], hsame⟩

theorem sendAll_spec (link : LinkEntry) (protos : List LinkProtocol) :
    link.Alike (sendAll link protos).1 ∧
      ∀ f ∈ (sendAll link protos).2.1, f.1 = link.id ∧ f.2 ∈ protos := by
  induction protos generalizing link with
  | nil => simp [sendAll, LinkEntry.Alike.refl]
  | cons proto protos ih =>
      have hsend : link.Alike link.send.1 := ⟨⟨rfl, rfl⟩, rfl, rfl⟩
      unfold sendAll
      split
      · next link' heq =>
          obtain rfl : link.send.1 = link' := by rw [heq]
          obtain ⟨halike, hframes⟩ := ih link.send.1
          refine ⟨hsend.trans halike, ?_⟩
          intro f hf
          rcases List.mem_cons.mp hf with rfl | hf
          · exact ⟨(hsend.trans halike).id, by simp⟩
          · obtain ⟨hid, hmem⟩ := hframes f hf
            exact ⟨hid.trans hsend.id, by simp [hmem]⟩
      · next link' result _ heq =>
          obtain rfl : link.send.1 = link' := by rw [heq]
          refine ⟨hsend, ?_⟩
          intro f hf
          obtain rfl := List.mem_singleton.mp hf
          exact ⟨hsend.id, by simp⟩

/-- The size a link asks for is a `u32`, and not 0 if there is anything to send. All frames go to
one link. -/
theorem sendSlices_emits {m : LinkManager} {sliceMgr : SliceManager} {out : Outcome}
    (h : m.sendSlices sliceMgr = some out) :
    out.frames = [] ∨ ∃ size protos id, 0 < size ∧ size < 2 ^ 32 ∧
      sliceMgr.getSlices size = some protos ∧ out.frames.map Prod.snd <+: protos ∧
      ∀ f ∈ out.frames, f.1 = id := by
  unfold sendSlices at h
  cases hlinks : dropUnusable m.links with
  | nil =>
      rw [hlinks] at h
      cases h
      exact Or.inl rfl
  | cons link rest =>
      rw [hlinks] at h
      obtain ⟨protos, hprotos, h⟩ := Option.bind_eq_some_iff.mp h
      cases h
      have hpre := sendAll_frames link protos
      have hsize : link.maxSize < 2 ^ 32 :=
        Nat.lt_of_le_of_lt (Nat.sub_le _ _) link.link.maxSize_lt
      cases protos with
      | nil =>
          apply Or.inl
          exact List.map_eq_nil_iff.mp (List.prefix_nil.mp hpre)
      | cons f rest =>
          obtain ⟨firstIndex, piece, _, hpiece, hlen⟩ :=
            SliceManager.getSlices_pieces hprotos f (by simp)
          have hpos := List.length_pos_of_ne_nil hpiece.1
          exact Or.inr ⟨_, f :: rest, link.id, by omega, hsize, hprotos, hpre,
            fun x hx => ((sendAll_spec link (f :: rest)).2 x hx).1⟩

/-- The frames an operation can hand to an entry. -/
def Op.Hands (e : LinkEntry) (f : LinkProtocol) : Op → Prop
  | .sendProto proto => f = proto
  | .sendSlices sliceMgr => ∃ protos, sliceMgr.getSlices e.maxSize = some protos ∧ f ∈ protos
  | .pingAll _ => f = .ping
  | .pong _ => f = .pong
  | _ => False

end LinkManager

namespace Traffic

open LinkManager

/-- What an operation does: every entry after it is one from before it or the one it adds, and
every frame it hands out goes to an entry from before it. -/
structure Step (t : Traffic) (o : Op) (t' : Traffic) : Prop where
  entries : ∀ e' ∈ t'.links.links, o = .addLink e' ∨ ∃ e ∈ t.links.links, e.SameLink e'
  frames : ∃ handed, t'.frames = t.frames ++ handed ∧
    ∀ f ∈ handed, ∃ e ∈ t.links.links, e.id = f.1 ∧ o.Hands e f.2

private theorem Step.silent {t : Traffic} {o : Op} {links : LinkManager}
    (h : ∀ e' ∈ links.links, o = .addLink e' ∨ ∃ e ∈ t.links.links, e.SameLink e') :
    Step t o { t with links } where
  entries := h
  frames := ⟨[], by simp, by simp⟩

private theorem Step.front {t : Traffic} {o : Op} {link link' : LinkEntry} {rest : List LinkEntry}
    {handed : List Sent} (hlinks : dropUnusable t.links.links = link :: rest)
    (hsame : link.SameLink link')
    (hhanded : ∀ f ∈ handed, f.1 = link.id ∧ ∀ e : LinkEntry, e.SameLink link → o.Hands e f.2) :
    Step t o ⟨⟨link' :: rest⟩, t.frames ++ handed⟩ := by
  have hdrop : ∀ e' ∈ link :: rest, ∃ e ∈ t.links.links, e.SameLink e' := by
    intro e' he'
    exact mem_dropUnusable (hlinks ▸ he')
  obtain ⟨e, he, hlink⟩ := hdrop link (by simp)
  refine ⟨?_, handed, rfl, ?_⟩
  · intro e' he'
    rcases List.mem_cons.mp he' with rfl | hmem
    · exact Or.inr ⟨e, he, hlink.trans hsame⟩
    · exact Or.inr (hdrop e' (by simp [hmem]))
  · intro f hf
    obtain ⟨hid, hhands⟩ := hhanded f hf
    exact ⟨e, he, (hid.trans hlink.id).symm, hhands e hlink⟩

private theorem op_step {t t' : Traffic} {o : Op} (h : t.op o = some t') : Step t o t' := by
  cases o with
  | addLink link =>
      obtain rfl := Option.some.inj h
      apply Step.silent
      intro e' he'
      rcases List.mem_cons.mp he' with rfl | hmem
      · exact Or.inl rfl
      · exact Or.inr ⟨e', hmem, .refl e'⟩
  | evictLink id =>
      obtain rfl := Option.some.inj h
      apply Step.silent
      intro e' he'
      exact Or.inr ⟨e', (List.mem_filter.mp he').1, .refl e'⟩
  | sendProto proto =>
      obtain rfl := Option.some.inj h
      simp only [LinkManager.sendProto]
      cases hlinks : dropUnusable t.links.links with
      | nil => exact ⟨by simp, [], by simp, by simp⟩
      | cons link rest =>
          have hsend : link.SameLink link.send.1 := ⟨rfl, rfl⟩
          apply Step.front hlinks hsend
          intro f hf
          obtain rfl := List.mem_singleton.mp hf
          exact ⟨rfl, fun _ _ => rfl⟩
  | sendSlices sliceMgr =>
      obtain ⟨out, hout, rfl⟩ := Option.map_eq_some_iff.mp h
      unfold LinkManager.sendSlices at hout
      cases hlinks : dropUnusable t.links.links with
      | nil =>
          rw [hlinks] at hout
          obtain rfl := Option.some.inj hout
          exact ⟨by simp, [], by simp, by simp⟩
      | cons link rest =>
          rw [hlinks] at hout
          obtain ⟨protos, hprotos, hout⟩ := Option.bind_eq_some_iff.mp hout
          obtain rfl := Option.some.inj hout
          obtain ⟨hsame, hframes⟩ := sendAll_spec link protos
          apply Step.front hlinks hsame.toSameLink
          intro f hf
          obtain ⟨hid, hmem⟩ := hframes f hf
          refine ⟨hid, ?_⟩
          intro e hlink
          have hsize : link.maxSize = e.maxSize := by simp [LinkEntry.maxSize, hlink.link]
          exact ⟨protos, hsize ▸ hprotos, hmem⟩
  | pingAll now =>
      obtain rfl := Option.some.inj h
      refine ⟨?_, _, rfl, ?_⟩
      · intro e' he'
        obtain ⟨e, he, rfl⟩ := List.mem_map.mp he'
        exact Or.inr ⟨e, he, .sendPing e now⟩
      · intro f hf
        obtain ⟨e, he, rfl⟩ := List.mem_map.mp hf
        exact ⟨e, he, rfl, rfl⟩
  | pong id =>
      obtain rfl := Option.some.inj h
      refine ⟨?_, _, rfl, ?_⟩
      · intro e' he'
        exact Or.inr (mem_modifyFirst (f := fun e => e.send.1) (fun _ => ⟨rfl, rfl⟩) he')
      · intro f hf
        simp only [LinkManager.pong, List.any_eq_true, decide_eq_true_eq] at hf
        split at hf
        · next hany =>
            obtain ⟨e, he, hid⟩ := hany
            obtain rfl := List.mem_singleton.mp hf
            exact ⟨e, he, hid, rfl⟩
        · cases hf
  | endPing id now =>
      obtain rfl := Option.some.inj h
      apply Step.silent
      intro e' he'
      exact Or.inr (mem_modifyFirst (fun e => .endPing e now) he')
  | upkeep =>
      obtain rfl := Option.some.inj h
      apply Step.silent
      intro e' he'
      obtain ⟨e, he, rfl⟩ := List.mem_map.mp he'
      exact Or.inr ⟨e, (List.mem_filter.mp he).1, ⟨rfl, rfl⟩⟩
  | drop =>
      obtain rfl := Option.some.inj h
      apply Step.silent
      simp [LinkManager.new]

end Traffic

def LinkProtocol.isSlice : LinkProtocol → Bool
  | .msgSlice _ _ _ _ _ => true
  | _ => false

/-- The headers are shorter than what `wrap_link` sets aside for them. -/
theorem LinkProtocol.serialize_length_le (f : LinkProtocol) :
    f.serialize.length ≤ LinkEntry.overhead + match f with
      | .msgSlice _ _ _ _ data => data.length
      | _ => 0 := by
  cases f <;>
    simp only [serialize, List.length_append, List.length_cons, List.length_nil, toBeBytes_length,
      LinkEntry.overhead] <;> omega

namespace LinkManager.Op

/-- The operations as the core calls them: the entries added have the property, and `send_proto`
is for resets and acknowledgements. -/
def Allowed (B : LinkEntry → Prop) : Op → Prop
  | .addLink e => B e
  | .sendProto proto => proto.isSlice = false
  | _ => True

theorem Allowed.mono {B B' : LinkEntry → Prop} {o : Op} (h : o.Allowed B)
    (hB : ∀ e, B e → B' e) : o.Allowed B' := by
  cases o with
  | addLink e => exact hB e h
  | _ => exact h

private theorem Hands.fits {B : LinkEntry → Prop} {o : Op} {e : LinkEntry} {f : LinkProtocol}
    (h : o.Hands e f) (hallowed : o.Allowed B) (hsize : LinkEntry.overhead < e.link.maxSize) :
    f.serialize.length ≤ e.link.maxSize := by
  have hlen := f.serialize_length_le
  have hcontrol : f.isSlice = false → f.serialize.length ≤ e.link.maxSize := by
    intro hf
    cases f with
    | msgSlice _ _ _ _ _ => cases hf
    | _ => simp only at hlen; omega
  cases o with
  | sendProto proto => exact hcontrol (h ▸ hallowed)
  | sendSlices sliceMgr =>
      obtain ⟨protos, hprotos, hmem⟩ := h
      obtain ⟨firstIndex, piece, rfl, _, hpiece⟩ := SliceManager.getSlices_pieces hprotos f hmem
      simp only [LinkEntry.maxSize] at hlen hpiece
      omega
  | pingAll now => exact hcontrol (h ▸ rfl)
  | pong id => exact hcontrol (h ▸ rfl)
  | _ => cases h

end LinkManager.Op

namespace Traffic

open LinkManager

/-- Every entry is one of the links `B`, and every frame handed out fits the one it was handed
to. -/
structure Fitting (B : Nat → Link → Prop) (t : Traffic) : Prop where
  entries : ∀ e ∈ t.links.links, B e.id e.link
  frames : ∀ f ∈ t.frames, ∃ link, B f.1 link ∧ f.2.serialize.length ≤ link.maxSize

variable {B : Nat → Link → Prop} {t t' : Traffic}

theorem Fitting.mono {B' : Nat → Link → Prop} (h : Fitting B t)
    (hB : ∀ id link, B id link → B' id link) : Fitting B' t where
  entries := fun e he => hB _ _ (h.entries e he)
  frames := fun f hf => (h.frames f hf).imp fun _ hlink => ⟨hB _ _ hlink.1, hlink.2⟩

private theorem Fitting.op (hB : ∀ id link, B id link → LinkEntry.overhead < link.maxSize)
    (h : Fitting B t) {o : Op} (hallowed : o.Allowed fun e => B e.id e.link)
    (hop : t.op o = some t') : Fitting B t' := by
  have hstep := op_step hop
  constructor
  · intro e' he'
    rcases hstep.entries e' he' with rfl | ⟨e, he, hsame⟩
    · exact hallowed
    · rw [hsame.id, hsame.link]
      exact h.entries e he
  · obtain ⟨handed, hframes, hhanded⟩ := hstep.frames
    intro f hf
    rw [hframes, List.mem_append] at hf
    rcases hf with hold | hnew
    · exact h.frames f hold
    · obtain ⟨e, he, hid, hands⟩ := hhanded f hnew
      have hlink := h.entries e he
      exact ⟨e.link, hid ▸ hlink, hands.fits hallowed (hB _ _ hlink)⟩

theorem Fitting.run (hB : ∀ id link, B id link → LinkEntry.overhead < link.maxSize)
    (h : Fitting B t) {ops : List Op} (hallowed : ∀ o ∈ ops, o.Allowed fun e => B e.id e.link)
    (hrun : run Traffic.op t ops = some t') : Fitting B t' :=
  run_invariant_of (fun _ _ _ hs ho hop => hs.op hB ho hop) h
    (AllSteps.of_forall_mem hallowed t) hrun

end Traffic

end LinkSet
