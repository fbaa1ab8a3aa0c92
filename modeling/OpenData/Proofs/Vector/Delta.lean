import OpenData.Proofs.Common.Sequence
import OpenData.Proofs.Vector.Postings
import OpenData.Vector.Delta

/-!
# What holds of every delta

`Pending` is kept by each operation that the indexer issues, and so holds of the delta of every
batch (`pending_run`). It says which ids a delta can name: new centroids have numbers that were free
before the batch, all others were handed out before.
-/

namespace OpenData.Vector

open Lib List
open OpenData.Sequence (SequenceAllocator allocateOne_spec)

variable {V : Type} {id : VectorId}

theorem centroidId_eq_ok {level number} (h : VectorId.centroidId level number = .ok id) :
    id.level = level ∧ id.number = number ∧ id.isCentroid := by
  unfold VectorId.centroidId at h
  split at h
  next hok =>
    cases h
    exact ⟨rfl, rfl, hok.1.1, fun heq => hok.1.2.ne (congrArg VectorId.level heq)⟩
  next => cases h

namespace SearchIndexDelta

variable {state : VectorIndexState V} {d d' : SearchIndexDelta V}

/-- What a delta never loses: new centroids have numbers that were free before the batch, and the
other ids that it names were handed out. -/
structure Pending (state : VectorIndexState V) (d : SearchIndexDelta V) : Prop where
  wf : d.idAllocator.block.WF
  next_le : state.centroidSequence.peekNextSequence.toNat ≤ d.nextNumber
  new : ∀ c ∈ d.newCentroids, c.isCentroid ∧
    state.centroidSequence.peekNextSequence.toNat ≤ c.number ∧
    (d.upsertedCentroids.lookup c).isSome
  upserted : ∀ c info, d.upsertedCentroids.lookup c = some info → info.level = c.level ∧
    c ∉ d.deletedCentroids ∧ (c ∈ d.newCentroids ∨ (state.centroids.lookup c).isSome)
  deleted : ∀ c ∈ d.deletedCentroids, d.Allocated c
  posted : ∀ c, (d.postingUpdates.lookup c).isSome → d.Allocated c

theorem pending_new (hwf : state.centroidSequence.block.WF) : Pending state (new state) where
  wf := hwf
  next_le := Nat.le_refl _
  new := by simp [SearchIndexDelta.new]
  upserted := by simp [SearchIndexDelta.new]
  deleted := by simp [SearchIndexDelta.new]
  posted := by simp [SearchIndexDelta.new]

theorem Pending.congr (h : Pending state d) (hids : d'.idAllocator = d.idAllocator)
    (hup : d'.upsertedCentroids = d.upsertedCentroids) (hnew : d'.newCentroids = d.newCentroids)
    (hdel : d'.deletedCentroids = d.deletedCentroids)
    (hpost : d'.postingUpdates = d.postingUpdates) : Pending state d' := by
  have hnext : d'.nextNumber = d.nextNumber := by rw [nextNumber, hids, nextNumber]
  obtain ⟨hwf, hle, hn, hu, hd, hp⟩ := h
  refine ⟨hids ▸ hwf, hnext ▸ hle, hnew ▸ hup ▸ hn, hup ▸ hdel ▸ hnew ▸ hu, ?_, ?_⟩
  · rw [hdel]
    exact fun c hc => ⟨(hd c hc).1, hnext ▸ (hd c hc).2⟩
  · rw [hpost]
    exact fun c hc => ⟨(hp c hc).1, hnext ▸ (hp c hc).2⟩

/-- The delta gives the centroid the next number and leaves all else as it is. -/
structure Adds (d : SearchIndexDelta V) (id : VectorId) (centroid : CentroidInfoValue V)
    (d' : SearchIndexDelta V) : Prop where
  wf : d'.idAllocator.block.WF
  number : id.number = d.nextNumber
  next : d'.nextNumber = d.nextNumber + 1
  isCentroid : id.isCentroid
  level : centroid.level = id.level
  upserted : d'.upsertedCentroids = d.upsertedCentroids.insert id centroid
  new : d'.newCentroids = d.newCentroids.insert id
  deleted : d'.deletedCentroids = d.deletedCentroids
  posted : d'.postingUpdates = d.postingUpdates

variable {level : Nat} {centroid : CentroidInfoValue V}

theorem addCentroid_spec (hwf : d.idAllocator.block.WF) {vector parent}
    (hadd : d.addCentroid level vector parent = .ok ((id, centroid), d')) :
    Adds d id centroid d' := by
  obtain ⟨-, hadd⟩ := of_ensure_bind hadd
  rcases hnumber : d.idAllocator.allocateOne with ⟨n, record, a⟩
  rw [hnumber] at hadd
  obtain ⟨id, hid, hadd⟩ := exists_of_bind_eq_ok hadd
  obtain ⟨centroid, hcentroid, hadd⟩ := exists_of_bind_eq_ok hadd
  obtain ⟨-, hcentroid⟩ := of_ensure_bind hcentroid
  cases hcentroid
  obtain ⟨hpair, rfl⟩ := Prod.mk.inj (Except.ok.inj hadd)
  obtain ⟨rfl, rfl⟩ := Prod.mk.inj hpair
  obtain ⟨hlevel, hnum, hcentroid⟩ := centroidId_eq_ok hid
  have hsmall : n.toNat + OpenData.Sequence.defaultBlockSize.toNat < 2 ^ 64 :=
    Nat.lt_of_lt_of_le (Nat.add_lt_add_right (hnum ▸ id.number_lt) _) (by decide)
  have halloc := allocateOne_spec hwf hnumber hsmall
  exact {
    wf := halloc.wf
    number := hnum.trans (congrArg UInt64.toNat halloc.base_eq)
    next := halloc.next
    isCentroid := hcentroid
    level := hlevel.symm
    upserted := rfl
    new := rfl
    deleted := rfl
    posted := rfl }

theorem Pending.add (h : Pending state d) (hadd : Adds d id centroid d') : Pending state d' := by
  -- Ids with a number below the next one still have one.
  have hlater {c : VectorId} (hc : d.Allocated c) : d'.Allocated c :=
    ⟨hc.1, hadd.next ▸ Nat.lt_succ_of_lt hc.2⟩
  refine ⟨hadd.wf, hadd.next ▸ Nat.le_succ_of_le h.next_le, ?_, ?_,
    fun c hc => hlater (h.deleted c (hadd.deleted ▸ hc)),
    fun c hc => hlater (h.posted c (hadd.posted ▸ hc))⟩
  · rw [hadd.new, hadd.upserted]
    intro c hc
    by_cases heq : c = id
    · subst heq
      rw [AList.lookup_insert]
      exact ⟨hadd.isCentroid, hadd.number ▸ h.next_le, rfl⟩
    · rw [AList.lookup_insert_ne heq]
      exact h.new c ((mem_insert_iff.mp hc).resolve_left heq)
  · rw [hadd.upserted, hadd.new, hadd.deleted]
    intro c info hinfo
    by_cases heq : c = id
    · subst heq
      rw [AList.lookup_insert] at hinfo
      cases hinfo
      refine ⟨hadd.level, fun hmem => ?_, .inl mem_insert_self⟩
      exact absurd (h.deleted c hmem).2 (Nat.not_lt.mpr hadd.number.ge)
    · rw [AList.lookup_insert_ne heq] at hinfo
      obtain ⟨hlevel, hdel, hknown⟩ := h.upserted c info hinfo
      exact ⟨hlevel, hdel, hknown.imp_left mem_insert_of_mem⟩

variable {c : VectorId}

theorem Pending.updateCentroid (h : Pending state d) {entry}
    (hknown : Known state d c) (hup : d.updateCentroid c entry = .ok d') : Pending state d' := by
  obtain ⟨hlevel, hup⟩ := of_ensure_bind hup
  obtain ⟨-, hup⟩ := of_ensure_bind hup
  cases hup
  obtain ⟨hdel, hknown⟩ := hknown
  refine ⟨h.wf, h.next_le, ?_, ?_, h.deleted, h.posted⟩
  · intro c' hc'
    obtain ⟨hroot, hle, hsome⟩ := h.new c' hc'
    refine ⟨hroot, hle, ?_⟩
    by_cases heq : c' = c
    · rw [heq, AList.lookup_insert]
      rfl
    · rwa [AList.lookup_insert_ne heq]
  · intro c' info hinfo
    by_cases heq : c' = c
    · subst heq
      rw [AList.lookup_insert] at hinfo
      cases hinfo
      refine ⟨hlevel.symm, hdel, ?_⟩
      rcases hknown with hknown | hknown
      · obtain ⟨info, hinfo⟩ := Option.isSome_iff_exists.mp hknown
        exact (h.upserted c' info hinfo).2.2
      · exact .inr hknown
    · rw [AList.lookup_insert_ne heq] at hinfo
      exact h.upserted c' info hinfo

theorem Pending.deleteCentroid (h : Pending state d) (hc : d.Allocated c) :
    Pending state (d.deleteCentroid c) := by
  refine ⟨h.wf, h.next_le, ?_, ?_, ?_, ?_⟩
  · intro c' hc'
    obtain ⟨hmem, hne⟩ := mem_filter.mp hc'
    obtain ⟨hroot, hle, hsome⟩ := h.new c' hmem
    exact ⟨hroot, hle, by
      rwa [SearchIndexDelta.deleteCentroid, AList.lookup_erase_ne (of_decide_eq_true hne)]⟩
  · intro c' info hinfo
    by_cases heq : c' = c
    · rw [heq, SearchIndexDelta.deleteCentroid, AList.lookup_erase] at hinfo
      cases hinfo
    · rw [SearchIndexDelta.deleteCentroid, AList.lookup_erase_ne heq] at hinfo
      obtain ⟨hlevel, hdel, hknown⟩ := h.upserted c' info hinfo
      refine ⟨hlevel, ?_, hknown.imp_left fun hnew => ?_⟩
      · exact fun hmem => (mem_insert_iff.mp hmem).elim heq hdel
      · exact mem_filter.mpr ⟨hnew, decide_eq_true heq⟩
  · intro c' hc'
    rcases mem_insert_iff.mp hc' with rfl | hc'
    · exact hc
    · exact h.deleted c' hc'
  · intro c' hc'
    by_cases heq : c' = c
    · exact heq ▸ hc
    · rw [SearchIndexDelta.deleteCentroid, AList.lookup_erase_ne heq] at hc'
      exact h.posted c' hc'

theorem Pending.deleteCentroids (h : Pending state d) {cs}
    (hcs : ∀ c ∈ cs, d.Allocated c) : Pending state (d.deleteCentroids cs) := by
  induction cs generalizing d with
  | nil => exact h
  | cons c cs ih =>
    obtain ⟨hc, hcs⟩ := forall_mem_cons.mp hcs
    exact ih (h.deleteCentroid hc) hcs

theorem Pending.pushPosting (h : Pending state d) (hc : d.Allocated c)
    (u : PostingUpdate V) (change : Int) : Pending state (d.pushPosting c u change) := by
  refine ⟨h.wf, h.next_le, h.new, h.upserted, h.deleted, ?_⟩
  intro c' hc'
  by_cases heq : c' = c
  · exact heq ▸ hc
  · rw [SearchIndexDelta.pushPosting, Table.lookup_alter, if_neg heq] at hc'
    exact h.posted c' hc'

theorem Pending.addRootCentroids {vectors postings}
    (h : Pending state d) (hadd : addRootCentroids level d vectors = .ok (postings, d')) :
    Pending state d' := by
  induction vectors generalizing d postings with
  | nil =>
    obtain ⟨-, rfl⟩ := Prod.mk.inj (Except.ok.inj hadd)
    exact h
  | cons vector vectors ih =>
    obtain ⟨⟨r, mid⟩, hone, hadd⟩ := exists_of_bind_eq_ok hadd
    obtain ⟨⟨rest, last⟩, hrest, hadd⟩ := exists_of_bind_eq_ok hadd
    obtain ⟨-, rfl⟩ := Prod.mk.inj (Except.ok.inj hadd)
    exact ih (h.add (addCentroid_spec h.wf hone)) hrest

theorem Pending.promoteRoot (h : Pending state d) {vectors}
    (hpromote : d.promoteRoot vectors = .ok (level, d')) : Pending state d' := by
  obtain ⟨depth, -, hpromote⟩ := exists_of_bind_eq_ok hpromote
  obtain ⟨⟨postings, mid⟩, hadd, hpromote⟩ := exists_of_bind_eq_ok hpromote
  obtain ⟨-, hpromote⟩ := of_ensure_bind hpromote
  obtain ⟨-, rfl⟩ := Prod.mk.inj (Except.ok.inj hpromote)
  have hdeep : Pending state { d with depth } := h.congr rfl rfl rfl rfl rfl
  exact (hdeep.addRootCentroids hadd).congr rfl rfl rfl rfl rfl

theorem Pending.applyOp (h : Pending state d) {op} (hissued : Issued state d op)
    (hop : d.applyOp op = .ok d') : Pending state d' := by
  cases op with
  | addCentroid =>
    obtain ⟨⟨r, mid⟩, hadd, hop⟩ := exists_of_bind_eq_ok hop
    cases hop
    exact h.add (addCentroid_spec h.wf hadd)
  | updateCentroid => exact h.updateCentroid hissued hop
  | deleteCentroids =>
    cases hop
    exact h.deleteCentroids hissued
  | addToPosting c x =>
    obtain ⟨-, hop⟩ := of_ensure_bind hop
    cases hop
    have hcurrent : Pending state { d with currentPosting := d.currentPosting.insert x c } :=
      h.congr rfl rfl rfl rfl rfl
    exact hcurrent.pushPosting hissued _ _
  | removeFromPosting c x =>
    obtain ⟨-, hop⟩ := of_ensure_bind hop
    obtain ⟨-, hop⟩ := of_ensure_bind hop
    cases hop
    have hcurrent : Pending state { d with currentPosting := d.currentPosting.erase x } :=
      h.congr rfl rfl rfl rfl rfl
    exact hcurrent.pushPosting hissued _ _
  | addToRoot | removeFromRoot =>
    obtain ⟨-, hop⟩ := of_ensure_bind hop
    obtain ⟨-, hop⟩ := of_ensure_bind hop
    cases hop
    exact h.congr rfl rfl rfl rfl rfl
  | promoteRoot vectors =>
    obtain ⟨⟨level, mid⟩, hpromote, hop⟩ := exists_of_bind_eq_ok hop
    cases hop
    exact h.promoteRoot hpromote

theorem pending_run (hwf : state.centroidSequence.block.WF) {ops}
    (hrun : Run step (Issued state) (new state) ops d) : Pending state d :=
  hrun.invariant (pending_new hwf) fun _ _ _ h hissued hstep =>
    h.applyOp hissued (toOption_eq_some.mp hstep)

end SearchIndexDelta

end OpenData.Vector
