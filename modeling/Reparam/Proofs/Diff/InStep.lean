import Reparam.Proofs.Diff.Fitting

/-! As long as no parameter is moved early, the reference parameters to come stand next to each
other. What stands around them has the target's types already. -/
namespace Reparam

variable {types wanted : List ValueType} {cfg : Setting} {d : Draft}
  {items pre mid post settled : List Item} {ps reference target done : List Placed} {round : Round}
  {g : Placed → Bool}

/-- The stage moves a parameter before its turn. -/
def Stage.isMove : Stage → Bool
  | .moveTo .. => true
  | _ => false

/-- The parameters of a list have the ordinals from a number on. -/
def NumberedFrom (start : Nat) (target : List Placed) : Prop :=
  ∀ (i : Nat) (q : Placed), target[i]? = some q → q.ordinal = start + i

/-- The reference parameters to come stand in one piece, where the target parameters to come
belong. -/
def InStep (wanted : List ValueType) (reference target : List Placed) (items : List Item) : Prop :=
  ∃ pre post, items = pre ++ reference.map Placed.item ++ post ∧
    wanted = pre.map (·.2) ++ target.map (·.type) ++ post.map (·.2) ∧
    NumberedFrom pre.length target

theorem NumberedFrom.drop {start : Nat} (h : NumberedFrom start target) (n : Nat) :
    NumberedFrom (start + n) (target.drop n) := by
  intro i q hq
  rw [List.getElem?_drop] at hq
  rw [h _ _ hq, Nat.add_assoc]

theorem numberedFrom_nil (start : Nat) : NumberedFrom start [] := by
  intro i q hq
  cases hq

theorem numberedFrom_ofList (params : List Parameter) :
    NumberedFrom 0 (Placed.ofList params) := by
  intro i q hq
  simp only [Placed.ofList, List.getElem?_map, List.getElem?_zipIdx, Option.map_map,
    Option.map_eq_some_iff] at hq
  obtain ⟨p, -, rfl⟩ := hq
  rfl

/-- Parameters that got the target's types are left behind. -/
theorem InStep.advance (settled : List Item) (done : List Placed)
    (hitems : items = pre ++ settled ++ reference.map Placed.item ++ post)
    (hwanted : wanted = pre.map (·.2) ++ (done ++ target).map (·.type) ++ post.map (·.2))
    (hn : NumberedFrom pre.length (done ++ target))
    (hsettled : settled.map (·.2) = done.map (·.type)) : InStep wanted reference target items := by
  refine ⟨pre ++ settled, post, hitems, ?_, ?_⟩
  · rw [hwanted, List.map_append, List.map_append, hsettled]
    simp only [List.append_assoc]
  · have hlen : settled.length = done.length := by simpa using congrArg List.length hsettled
    have hdrop := hn.drop done.length
    rwa [List.drop_left, ← hlen, ← List.length_append] at hdrop

/-- Inserting what the list lacks, each at its place, completes it. -/
theorem Draft.Shows.insert_missing (h : d.Shows types (pre ++ mid ++ post))
    (hmid : mid.map (·.2) = (target.filter fun q => !g q).map (·.type))
    (hn : NumberedFrom pre.length target) :
    ∃ items', Gives types ((insertions (target.filter g)).foldlM Draft.perform d) items' ∧
      items'.map (·.2) = pre.map (·.2) ++ target.map (·.type) ++ post.map (·.2) := by
  induction target generalizing d pre mid with
  | nil =>
    obtain rfl : mid = [] := by simpa using hmid
    exact ⟨_, ⟨d, rfl, h⟩, by simp⟩
  | cons q target ih =>
    have hrest := hn.drop 1
    by_cases hg : g q
    · have hmid' : mid.map (·.2) = (target.filter fun q => !g q).map (·.type) := by
        simpa [hg] using hmid
      rw [List.append_assoc] at h
      obtain ⟨d₁, hd₁, h₁⟩ := h.insert_between (hn 0 q rfl) q.type
      have hsplit : pre ++ Item.fresh q.type :: (mid ++ post) =
          (pre ++ [Item.fresh q.type]) ++ mid ++ post := by simp
      rw [hsplit] at h₁
      obtain ⟨items', hgives, htypes⟩ := ih h₁ hmid' (by simpa using hrest)
      refine ⟨items', ?_, by rw [htypes]; simp [Item.fresh]⟩
      rw [List.filter_cons_of_pos hg, insertions, List.map_cons, List.foldlM_cons, Draft.perform, hd₁]
      exact hgives
    · obtain _ | ⟨z, mid⟩ := mid
      · simp [hg] at hmid
      have hmid' : z.2 = q.type ∧ mid.map (·.2) = (target.filter fun q => !g q).map (·.type) := by
        simpa [hg] using hmid
      have hsplit : pre ++ z :: mid ++ post = (pre ++ [z]) ++ mid ++ post := by simp
      rw [hsplit] at h
      obtain ⟨items', hgives, htypes⟩ := ih h hmid'.2 (by simpa using hrest)
      refine ⟨items', ?_, by rw [htypes]; simp [hmid'.1]⟩
      rwa [List.filter_cons_of_neg hg]

theorem InStep.insertions (target : List Placed) :
    Round.Keeps types (InStep wanted) [] target ⟨insertions target, [], []⟩ := by
  rintro d items hd ⟨pre, post, rfl, hwanted, hn⟩
  have hnone : d.Shows types (pre ++ [] ++ post) := hd
  obtain ⟨items', hgives, htypes⟩ := hnone.insert_missing (g := fun _ => true) (by simp) hn
  rw [List.filter_eq_self.2 fun _ _ => rfl] at hgives
  exact ⟨items', hgives, items', [], by simp, by simp [hwanted, htypes],
    numberedFrom_nil _⟩

/-- The kept parameters come into the wanted order where they stand. -/
theorem Draft.Shows.order_in_place {qs : List Placed}
    (h : d.Shows types (pre ++ ps.map Placed.item ++ post))
    (hp : (ps.map (·.type)).Perm (qs.map (·.type))) :
    ∃ span : List Placed, Gives types ((ordering ps qs).foldlM Draft.perform d)
      (pre ++ span.map Placed.item ++ post) ∧ span.map (·.type) = qs.map (·.type) := by
  obtain ⟨a, a', b, b', hps, hqs, ha, hb⟩ := Round.trim_eq ps qs
  have hperm := Round.trim_perm hp
  unfold ordering
  generalize (Round.trim ps qs).1 = ps' at hps hperm
  generalize (Round.trim ps qs).2 = qs' at hqs hperm
  subst hps hqs
  split
  · rename_i hempty
    obtain rfl := List.isEmpty_iff.1 hempty
    obtain rfl : qs' = [] := by simpa using hperm.length_eq.symm
    exact ⟨_, ⟨d, rfl, h⟩, by simp [ha, hb]⟩
  · have hsplit : pre ++ (a ++ ps' ++ b).map Placed.item ++ post =
        (pre ++ a.map Placed.item) ++ ps'.map Placed.item ++ (b.map Placed.item ++ post) := by simp
    rw [hsplit] at h
    obtain ⟨span, hgives, htypes⟩ := h.rearrange hperm
    refine ⟨a ++ span ++ b, ?_, by simp [ha, hb, htypes]⟩
    rw [foldlM_single]
    simpa using hgives

namespace Round

theorem peeled_in_step (h : d.Shows types (pre ++ reference.map Placed.item ++ post))
    (hn : NumberedFrom pre.length target)
    (hp : ((peelBoth reference target).kept.map (·.type)).Perm
      ((peelBoth reference target).wanted.map (·.type))) :
    ∃ items', Gives types ((peelBoth reference target).stages.foldlM Draft.perform d) items' ∧
      items'.map (·.2) = pre.map (·.2) ++ target.map (·.type) ++ post.map (·.2) := by
  obtain ⟨f, g, hpeel⟩ := peelBoth_eq reference target
  rw [hpeel] at hp ⊢
  have hdistinct := h.distinct
  rw [present_append, present_append, present_items] at hdistinct
  have hpre := List.nodup_append.1 (List.nodup_append.1 hdistinct).1
  have hpost := (List.nodup_append.1 hdistinct).2.2
  generalize hgone : (reference.filter f).reverse.map (·.ordinal) = gone
  have hmem : ∀ o, o ∈ gone ↔ ∃ p ∈ reference, f p ∧ p.ordinal = o := by
    intro o
    rw [← hgone]
    simp [and_assoc]
  have hreference : ∀ o ∈ gone, o ∈ reference.map (·.ordinal) := by
    intro o ho
    obtain ⟨p, hpm, -, rfl⟩ := (hmem o).1 ho
    exact List.mem_map_of_mem hpm
  have hnodup : gone.Nodup := by
    rw [← hgone, List.map_reverse]
    exact List.nodup_reverse.2 (hpre.2.1.sublist (List.filter_sublist.map _))
  have hrest : without gone (pre ++ reference.map Placed.item ++ post) =
      pre ++ (reference.filter fun p => !f p).map Placed.item ++ post := by
    have hfront : without gone pre = pre :=
      without_eq_self fun o ho hm => hpre.2.2 o hm o (hreference o ho) rfl
    have hback : without gone post = post :=
      without_eq_self fun o ho hm =>
        hpost o (List.mem_append_right _ (hreference o ho)) o hm rfl
    have hmiddle : without gone (reference.map Placed.item) =
        (reference.filter fun p => !f p).map Placed.item := by
      rw [without, List.filter_map]
      refine congrArg _ (List.filter_congr fun p hpm => ?_)
      have hgone : p.ordinal ∈ gone ↔ f p := by
        rw [hmem]
        constructor
        · rintro ⟨p', hpm', hf, he⟩
          rwa [List.inj_on_of_nodup_map hpre.2.1 hpm hpm' he.symm]
        · exact fun hf => ⟨p, hpm, hf, rfl⟩
      simp [hgone]
    rw [without_append, without_append, hfront, hmiddle, hback]
  obtain ⟨d₁, hd₁, h₁⟩ := h.remove_all hnodup fun o ho => by
    rw [present_append, present_append, present_items]
    exact List.mem_append_left _ (List.mem_append_right _ (hreference o ho))
  rw [hrest] at h₁
  obtain ⟨span, ⟨d₂, hd₂, h₂⟩, hspan⟩ := h₁.order_in_place hp
  obtain ⟨items', hgives, htypes⟩ := h₂.insert_missing (by rw [← hspan]; simp [Placed.item]) hn
  refine ⟨items', ?_, htypes⟩
  rw [foldlM_peeled (by rw [hgone]; exact hd₁) hd₂]
  exact hgives

/-- A round that moves nothing early keeps both lists in step. -/
theorem Shape.in_step (h : round.Shape cfg reference target)
    (hmove : ∀ stage ∈ round.stages, stage.isMove = false) :
    round.Keeps types (InStep wanted) reference target := by
  rintro d items hd ⟨pre, post, rfl, hwanted, hn⟩
  cases h with
  | @keep p q ps qs htype =>
    refine ⟨_, ⟨d, rfl, hd⟩, InStep.advance [p.item] [q] (by simp) hwanted hn ?_⟩
    simp [Placed.item, htype]
  | @dropFirst p p₁ q ps qs htype =>
    simp only [List.map_cons, List.append_assoc, List.cons_append] at hd
    refine ⟨_, by rw [foldlM_single]; exact hd.remove rfl,
      InStep.advance [p₁.item] [q] (by simp) hwanted hn ?_⟩
    simp [Placed.item, htype]
  | @insertBehind p p₁ q q₁ q₂ ps qs htype htype₁ =>
    simp only [List.map_cons, List.append_assoc, List.cons_append] at hd
    refine ⟨_, by rw [foldlM_single]; exact hd.insertBehind rfl q₁.type,
      InStep.advance [p.item, Item.fresh q₁.type, p₁.item] [q, q₁, q₂] (by simp) hwanted hn ?_⟩
    simp [Placed.item, Item.fresh, htype, htype₁]
  | move => simp [Stage.isMove] at hmove
  | replace p q ps qs =>
    simp only [List.map_cons, List.append_assoc, List.cons_append] at hd
    refine ⟨_, by rw [foldlM_single]; exact hd.replace rfl q.type,
      InStep.advance [p.item.retype q.type] [q] (by simp) hwanted hn ?_⟩
    simp [Item.retype]
  | replaceSecond p p₁ q q₁ =>
    have hsplit : pre ++ [p, p₁].map Placed.item ++ post = (pre ++ [p.item]) ++ p₁.item :: post := by
      simp
    rw [hsplit] at hd
    refine ⟨_, by rw [foldlM_single]; exact hd.replace rfl q₁.type,
      pre, p₁.item.retype q₁.type :: post, by simp, ?_, ?_⟩
    · rw [hwanted]
      simp [Item.retype]
    · intro i q' hq'
      refine hn i q' ?_
      cases i with
      | zero => exact hq'
      | succ i => cases hq'
  | @swap p p₁ q q₁ htype htype₁ =>
    have hfirst : (pre ++ [p.item, p₁.item] ++ post)[0 + pre.length]? = some p.item :=
      getElem?_frame pre post (by simp)
    have hsecond : (pre ++ [p.item, p₁.item] ++ post)[1 + pre.length]? = some p₁.item :=
      getElem?_frame pre post (by simp)
    have hgives := hd.swap hfirst hsecond rfl rfl
    rw [exchange_frame pre post (by simp) (by simp)] at hgives
    refine ⟨_, by rw [foldlM_single]; exact hgives,
      InStep.advance [p₁.item, p.item] [q, q₁] (by simp [exchange]) hwanted hn ?_⟩
    simp [Placed.item, htype, htype₁]
  | rearrange hp =>
    obtain ⟨items', hgives, htypes⟩ := peeled_in_step hd hn hp
    exact ⟨items', hgives, items', [], by simp, by simp [hwanted, htypes],
      numberedFrom_nil _⟩
  | window p ps target m k =>
    have hsplit : pre ++ (p :: ps).map Placed.item ++ post =
        pre ++ p.item :: (ps.map Placed.item ++ post) := by simp
    have hwhole : Within (p :: ps.take m ++ ps.drop m) (p.item :: (ps.map Placed.item ++ post)) := by
      rw [List.cons_append, List.take_append_drop]
      exact within_items (p :: ps) post
    rw [hsplit] at hd
    obtain ⟨settled, rest, hgives, -, -, -, hexact⟩ := hd.window (target.take k) rfl hwhole
    obtain ⟨rfl, htypes⟩ := hexact ((ps.drop m).map Placed.item ++ post) (by
      rw [← List.append_assoc, ← List.map_append, List.cons_append, List.take_append_drop]
      rfl)
    rw [← List.append_assoc] at hgives
    refine ⟨_, by rw [cut, foldlM_single]; exact hgives,
      InStep.advance settled (target.take k) rfl ?_ ?_ htypes⟩
    · rwa [cut, List.take_append_drop]
    · rwa [cut, List.take_append_drop]
  | dropSecond p p₁ ps target =>
    have hsplit : pre ++ (p :: p₁ :: ps).map Placed.item ++ post =
        (pre ++ [p.item]) ++ p₁.item :: (ps.map Placed.item ++ post) := by simp
    rw [hsplit] at hd
    exact ⟨_, by rw [foldlM_single]; exact hd.remove rfl, pre, post, by simp, hwanted, hn⟩

end Round
end Reparam
