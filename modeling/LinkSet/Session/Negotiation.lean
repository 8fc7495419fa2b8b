import LinkSet.Session.Phase

/-!
# The negotiation of an epoch

Two endpoints that answer each other's resets over a link that loses nothing. The pair passes
through a few shapes only, and every answer brings it closer to the last one, in which both are
connected with the larger of the two epochs.
-/

namespace LinkSet

/-- The epoch of a reset and whether it asks for an answer. -/
abbrev ResetFrame := Option Epoch × Bool

namespace Phase

/-- What an endpoint becomes on a reset and what it sends back. -/
def negotiate : Phase → Option Epoch → Bool → Phase × List ResetFrame
  | .mismatch own, epoch, request =>
      match compareEpochs own epoch with
      | .gt => (.mismatch own, [(own, false)])
      | .eq => (.connected (own.getD Epoch.one), if request then [(own, false)] else [])
      | .lt => (.connected (epoch.getD Epoch.one), [(some (epoch.getD Epoch.one), false)])
  | .connected own, epoch, request =>
      if request then
        if epoch = some own then (.connected own, [(some own, false)])
        else (.mismatch (some own.increment), [(some own.increment, true)])
      else (.connected own, [])
  | p, _, _ => (p, [])

section mismatch

variable {own epoch : Option Epoch} {request : Bool}

theorem negotiate_gt (h : compareEpochs own epoch = .gt) :
    negotiate (.mismatch own) epoch request = (.mismatch own, [(own, false)]) := by
  simp [negotiate, h]

theorem negotiate_eq (h : compareEpochs own epoch = .eq) :
    negotiate (.mismatch own) epoch request =
      (.connected (own.getD Epoch.one), if request then [(own, false)] else []) := by
  simp [negotiate, h]

theorem negotiate_lt (h : compareEpochs own epoch = .lt) :
    negotiate (.mismatch own) epoch request =
      (.connected (epoch.getD Epoch.one), [(some (epoch.getD Epoch.one), false)]) := by
  simp [negotiate, h]

end mismatch

/-- The larger epoch, or the first one if there is none. -/
def winner (a b : Option Epoch) : Epoch :=
  if optEpochToInt a ≤ optEpochToInt b then b.getD Epoch.one else a.getD Epoch.one

private theorem winner_comm (a b : Option Epoch) : winner a b = winner b a := by
  unfold winner
  rcases Nat.lt_trichotomy (optEpochToInt a) (optEpochToInt b) with h | h | h
  · rw [if_pos (by omega), if_neg (by omega)]
  · rw [optEpochToInt_injective h]
  · rw [if_neg (by omega), if_pos (by omega)]

private theorem le_getD_one (a : Option Epoch) : optEpochToInt a ≤ (a.getD Epoch.one).val := by
  cases a with
  | none => exact Nat.zero_le _
  | some e => exact Nat.le_refl _

private theorem le_winner (a b : Option Epoch) :
    max (optEpochToInt a) (optEpochToInt b) ≤ (winner a b).val := by
  have ha := le_getD_one a
  have hb := le_getD_one b
  unfold winner
  split <;> omega

/-- Connected with the epoch, or about to be. -/
def Near (f : Epoch) (p : Phase) : Prop := p = .mismatch (some f) ∨ p = .connected f

/-- A request settles the epoch: the answer names the winner, and only an endpoint with the
larger epoch does not connect at once. -/
private theorem negotiate_request (own epoch : Option Epoch) :
    (optEpochToInt epoch < optEpochToInt own ∧ negotiate (.mismatch own) epoch true =
      (.mismatch (some (winner own epoch)), [(some (winner own epoch), false)])) ∨
    (optEpochToInt own ≤ optEpochToInt epoch ∧ negotiate (.mismatch own) epoch true =
      (.connected (winner own epoch), [(some (winner own epoch), false)])) := by
  cases hcmp : compareEpochs own epoch with
  | gt =>
      have hlt := compareEpochs_eq_gt.mp hcmp
      cases own with
      | none => simp [optEpochToInt] at hlt
      | some e =>
          have hwin : winner (some e) epoch = e := if_neg (by omega)
          exact Or.inl ⟨hlt, by rw [negotiate_gt hcmp, hwin]⟩
  | eq =>
      obtain ⟨rfl, hsome⟩ := compareEpochs_eq_eq.mp hcmp
      cases own with
      | none => exact absurd rfl hsome
      | some e =>
          have hwin : winner (some e) (some e) = e := if_pos (Nat.le_refl _)
          exact Or.inr ⟨Nat.le_refl _, by rw [negotiate_eq hcmp, hwin]; rfl⟩
  | lt =>
      have hle : optEpochToInt own ≤ optEpochToInt epoch := by
        rcases compareEpochs_eq_lt.mp hcmp with hlt | ⟨rfl, rfl⟩
        · exact Nat.le_of_lt hlt
        · exact Nat.le_refl _
      have hwin : winner own epoch = epoch.getD Epoch.one := if_pos hle
      exact Or.inr ⟨hle, by rw [negotiate_lt hcmp, hwin]⟩

private theorem negotiate_answer {f : Epoch} {p : Phase} (h : Near f p) :
    negotiate p (some f) false = (.connected f, []) := by
  rcases h with rfl | rfl
  · have hcmp : compareEpochs (some f) (some f) = .eq := compareEpochs_eq_eq.mpr ⟨rfl, by simp⟩
    rw [negotiate_eq hcmp]
    rfl
  · rfl

private theorem negotiate_larger {f : Epoch} {own : Option Epoch} (h : optEpochToInt own < f.val) :
    negotiate (.mismatch own) (some f) false = (.connected f, [(some f, false)]) := by
  have hcmp : compareEpochs own (some f) = .lt := compareEpochs_eq_lt.mpr (Or.inl h)
  rw [negotiate_lt hcmp]
  rfl

/-- The shapes of a negotiation seen from one side: its phase and the resets on the way to it,
then those of the other side. The rank bounds the resets still to be delivered, and both epochs at
the start were at most `lo`. -/
inductive Shape (lo : Nat) : Nat → Phase → List ResetFrame → Phase → List ResetFrame → Prop where
  | both (a b : Option Epoch) (hlo : lo ≤ max (optEpochToInt a) (optEpochToInt b)) :
      Shape lo 5 (.mismatch a) [(b, true)] (.mismatch b) [(a, true)]
  | one (a : Option Epoch) (e : Epoch) (hlo : lo ≤ max (optEpochToInt a) e.val) :
      Shape lo 6 (.mismatch a) [] (.connected e) [(a, true)]
  | asked (a : Option Epoch) (e : Epoch) (hlo : lo ≤ max (optEpochToInt a) e.val) :
      Shape lo 5 (.mismatch a) [(some e, true)] (.mismatch (some e)) []
  | insisted (e : Epoch) (c : Option Epoch) (hlt : optEpochToInt c < e.val) (hlo : lo ≤ e.val) :
      Shape lo 4 (.mismatch (some e)) [] (.mismatch c) [(some e, false)]
  | answered (p : Phase) (x y : Option Epoch) (hp : Near (winner y x) p)
      (hlo : lo ≤ (winner y x).val) :
      Shape lo 4 p [] (.mismatch y) [(x, true), (some (winner y x), false)]
  | settled (f : Epoch) (p q : Phase) (n m : Nat) (hp : Near f p) (hq : Near f q)
      (hn : p ≠ .connected f → n ≠ 0) (hm : q ≠ .connected f → m ≠ 0) (hlo : lo ≤ f.val) :
      Shape lo (n + m) p (List.replicate n (some f, false)) q (List.replicate m (some f, false))

/-- A shape seen from either side. -/
def Course (lo k : Nat) (p : Phase) (toP : List ResetFrame) (q : Phase) (toQ : List ResetFrame) :
    Prop := Shape lo k p toP q toQ ∨ Shape lo k q toQ p toP

variable {lo k : Nat} {p q : Phase} {toP toQ rest : List ResetFrame} {epoch : Option Epoch}
  {request : Bool}

theorem Course.symm (h : Course lo k p toP q toQ) : Course lo k q toQ p toP := Or.symm h

private theorem Shape.settled_deliver {f : Epoch} {n m : Nat} (hp : Near f p) (hq : Near f q)
    (hm : q ≠ .connected f → m ≠ 0) (hlo : lo ≤ f.val) :
    Shape lo (n + m) (negotiate p (some f) false).1 (List.replicate n (some f, false)) q
      (List.replicate m (some f, false) ++ (negotiate p (some f) false).2) := by
  rw [negotiate_answer hp, List.append_nil]
  exact Shape.settled f _ q n m (Or.inr rfl) hq (fun h => absurd rfl h) hm hlo

private theorem Shape.deliver (h : Shape lo k p toP q toQ) (hto : toP = (epoch, request) :: rest) :
    ∃ k' < k, Course lo k' (negotiate p epoch request).1 rest q
      (toQ ++ (negotiate p epoch request).2) := by
  cases h with
  | both a b hlo =>
      cases hto
      have hle : lo ≤ (winner epoch a).val := winner_comm a epoch ▸ hlo.trans (le_winner a epoch)
      refine ⟨4, by decide, Or.inl ?_⟩
      rcases negotiate_request a epoch with ⟨_, hneg⟩ | ⟨_, hneg⟩
      · rw [hneg, winner_comm a epoch]
        exact Shape.answered _ a epoch (Or.inl rfl) hle
      · rw [hneg, winner_comm a epoch]
        exact Shape.answered _ a epoch (Or.inr rfl) hle
  | one a e hlo => cases hto
  | asked a e hlo =>
      cases hto
      have hle := hlo.trans (le_winner a (some e))
      rcases negotiate_request a (some e) with ⟨hlt, hneg⟩ | ⟨hge, hneg⟩
      · rw [hneg]
        have hlt' : optEpochToInt (some e) < (winner a (some e)).val :=
          hlt.trans_le ((le_max_left _ _).trans (le_winner a (some e)))
        exact ⟨4, by decide, Or.inl (Shape.insisted _ (some e) hlt' hle)⟩
      · have hwin : winner a (some e) = e := if_pos hge
        rw [hneg, hwin]
        rw [hwin] at hle
        exact ⟨1, by decide, Or.inl (Shape.settled e _ _ 0 1 (Or.inr rfl) (Or.inl rfl)
          (fun h => absurd rfl h) (fun _ => by decide) hle)⟩
  | insisted e c hlt hlo => cases hto
  | answered p x y hp hlo => cases hto
  | settled f p q n m hp hq hn hm hlo =>
      cases n with
      | zero => cases hto
      | succ n =>
          cases hto
          exact ⟨n + m, by omega, Or.inl (Shape.settled_deliver hp hq hm hlo)⟩

private theorem Shape.deliver_other (h : Shape lo k p toP q toQ)
    (hto : toQ = (epoch, request) :: rest) :
    ∃ k' < k, Course lo k' (negotiate q epoch request).1 rest p
      (toP ++ (negotiate q epoch request).2) := by
  cases h with
  | both a b hlo =>
      rw [max_comm] at hlo
      exact Shape.deliver (Shape.both b a hlo) hto
  | one a e hlo =>
      cases hto
      by_cases hsame : epoch = some e
      · subst hsame
        have hneg : negotiate (.connected e) (some e) true = (.connected e, [(some e, false)]) := by
          simp [negotiate]
        rw [hneg]
        exact ⟨1, by decide, Or.inr (Shape.settled e _ _ 1 0 (Or.inl rfl) (Or.inr rfl)
          (fun _ => by decide) (fun h => absurd rfl h) (by simpa [optEpochToInt, Epoch.toInt] using hlo))⟩
      · have hneg : negotiate (.connected e) epoch true =
            (.mismatch (some e.increment), [(some e.increment, true)]) := by
          simp [negotiate, hsame]
        have hle := e.le_increment
        rw [hneg]
        exact ⟨5, by decide, Or.inr (Shape.asked epoch e.increment (by omega))⟩
  | asked a e hlo => cases hto
  | insisted e c hlt hlo =>
      cases hto
      rw [negotiate_larger hlt]
      exact ⟨1, by decide, Or.inr (Shape.settled e _ _ 1 0 (Or.inl rfl) (Or.inr rfl)
        (fun _ => by decide) (fun h => absurd rfl h) hlo)⟩
  | answered p x y hp hlo =>
      cases hto
      have hnear : ∀ q', Near (winner y epoch) q' →
          Course lo 2 q' [(some (winner y epoch), false)] p ([] ++ [(some (winner y epoch), false)]) :=
        fun q' hq' =>
          Or.inl (Shape.settled _ q' p 1 1 hq' hp (fun _ => by decide) (fun _ => by decide) hlo)
      rcases negotiate_request y epoch with ⟨_, hneg⟩ | ⟨_, hneg⟩
      · rw [hneg]
        exact ⟨2, by decide, hnear _ (Or.inl rfl)⟩
      · rw [hneg]
        exact ⟨2, by decide, hnear _ (Or.inr rfl)⟩
  | settled f p q n m hp hq hn hm hlo =>
      cases m with
      | zero => cases hto
      | succ m =>
          cases hto
          exact ⟨m + n, by omega, Or.inl (Shape.settled_deliver hq hp hn hlo)⟩

/-- Every delivery lowers the rank. -/
theorem Course.deliver (h : Course lo k p ((epoch, request) :: rest) q toQ) :
    ∃ k' < k, Course lo k' (negotiate p epoch request).1 rest q
      (toQ ++ (negotiate p epoch request).2) := by
  rcases h with h | h
  · exact h.deliver rfl
  · exact h.deliver_other rfl

private theorem Shape.done (h : Shape lo k p toP q toQ) (hP : toP = []) (hQ : toQ = []) :
    ∃ f, p = .connected f ∧ q = .connected f ∧ lo ≤ f.val := by
  cases h with
  | both a b hlo => cases hP
  | one a e hlo => cases hQ
  | asked a e hlo => cases hP
  | insisted e c hlt hlo => cases hQ
  | answered p x y hp hlo => cases hQ
  | settled f p q n m hp hq hn hm hlo =>
      rw [List.replicate_eq_nil_iff] at hP hQ
      refine ⟨f, ?_, ?_, hlo⟩
      · by_contra hne
        exact hn hne hP
      · by_contra hne
        exact hm hne hQ

/-- When no reset is on the way, both sides are connected with one epoch. -/
theorem Course.done (h : Course lo k p [] q []) :
    ∃ f, p = .connected f ∧ q = .connected f ∧ lo ≤ f.val := by
  rcases h with h | h
  · exact h.done rfl rfl
  · obtain ⟨f, hq, hp, hlo⟩ := h.done rfl rfl
    exact ⟨f, hp, hq, hlo⟩

end Phase

end LinkSet
