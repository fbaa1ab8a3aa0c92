import OpenData.Proofs.Timeseries.Bucket
import OpenData.Timeseries.Reader

/-!
# The stored indexes agree

The reader of a bucket answers from the stored inverted index and the stored forward index.
`stored_reads_agree` says that both can be read in every run of the database and that they agree: a
posting set has exactly the series that carry the label.
-/

namespace OpenData.Timeseries

open Lib Common List

/-- The series of a term. -/
def postings (index : InvertedIndex) (term : Label) : Finset SeriesId := (index.lookup term).getD ∅

variable {term : Label}

/-- What the reader returns are the records of the series: a posting set has the series with the
label. -/
structure Reader.Consistent (reader : Reader) (specs : SeriesId → Option SeriesSpec) : Prop where
  inverted : ∀ terms index, reader.invertedIndex terms = .ok index → ∀ term ∈ terms, ∀ id,
    id ∈ postings index term ↔ ∃ spec, specs id = some spec ∧ term ∈ spec.labels
  forward : ∀ id slot, reader.forwardIndexOne id = .ok slot → slot = specs id

theorem lookup_fetchAll {κ ν ε : Type} [DecidableEq κ] {fetch : κ → Except ε (Option ν)}
    {g : κ → Option ν} (hfetch : ∀ k slot, fetch k = .ok slot → slot = g k) {keys table}
    (h : fetchAll fetch keys = .ok table) (k : κ) :
    table.lookup k = if k ∈ keys then g k else none := by
  refine foldlM_history (I := fun keys (table : AList fun _ : κ => ν) => ∀ k, table.lookup k =
    if k ∈ keys then g k else none) h (by simp) ?_ k
  intro done table key table' htable hstep k
  obtain ⟨slot, hslot, hstep⟩ := exists_of_bind_eq_ok hstep
  have hvalue := hfetch key slot hslot
  by_cases hk : k = key
  · subst hk
    simp only [mem_append, mem_singleton, or_true, if_true, ← hvalue]
    cases slot with
    | none =>
      cases hstep
      rw [htable k, ← hvalue]
      simp
    | some =>
      cases hstep
      simp
  · have hsame : table'.lookup k = table.lookup k := by
      cases slot with
      | none =>
        cases hstep
        rfl
      | some =>
        cases hstep
        rw [AList.lookup_insert_ne hk]
    simp [hsame, htable k, hk]

theorem exists_fetchAll {κ ν ε : Type} [DecidableEq κ] {fetch : κ → Except ε (Option ν)}
    {g : κ → Option ν} (hfetch : ∀ k, fetch k = .ok (g k)) (keys : List κ) :
    ∃ table, fetchAll fetch keys = .ok table := by
  refine ⟨_, foldlM_eq_pure (g := fun table k => (g k).elim table (table.insert k)) ?_ ∅⟩
  intro table k _
  rw [hfetch]
  cases g k <;> rfl

section

variable {crates : Crates} {storage : Storage} {bucket : TimeBucket}

theorem getInvertedIndexTerm_iff {slot} :
    getInvertedIndexTerm crates storage bucket term = .ok slot ↔
      (storage[invertedIndexKey bucket term]?.bind fun v =>
        (crates.roaringDeserialize v).toOption) = slot ∧
      ∀ v, storage[invertedIndexKey bucket term]? = some v →
        ∃ postings, crates.roaringDeserialize v = .ok postings := by
  rw [getInvertedIndexTerm]
  cases storage[invertedIndexKey bucket term]? with
  | none => simp
  | some v => cases hdecode : crates.roaringDeserialize v <;> simp [hdecode, Except.toOption]

theorem getForwardIndexOne_iff {id slot} :
    getForwardIndexOne storage bucket id = .ok slot ↔ storedSpec storage bucket id = slot ∧
      ∀ v, storage[forwardIndexKey bucket id]? = some v →
        ∃ spec, ForwardIndexValue.decode v = .ok spec := by
  rw [getForwardIndexOne, storedSpec]
  cases storage[forwardIndexKey bucket id]? with
  | none => simp
  | some v => cases hdecode : ForwardIndexValue.decode v <;> simp [hdecode, Except.toOption]

theorem storageReader_consistent (h : ∀ label id, id ∈ storedPostings crates storage bucket label ↔
      ∃ spec, storedSpec storage bucket id = some spec ∧ label ∈ spec.labels) :
    (storageReader crates storage bucket).Consistent (storedSpec storage bucket) where
  inverted terms index hindex term hterm id := by
    rw [postings, lookup_fetchAll (fun _ _ h => (getInvertedIndexTerm_iff.mp h).1.symm) hindex,
      if_pos hterm]
    exact h term id
  forward _ _ hslot := (getForwardIndexOne_iff.mp hslot).1.symm

open Tsdb

/-- In every run over a bucket without records in which the database stays open, also if flushes
fail: the reader of a query can read the records, and they agree. The series are from a set of fewer
than `2 ^ 32` label lists with distinct fingerprints. -/
theorem stored_reads_agree (hcrates : crates.RoundTrip) (hstorage : NoRecords storage bucket)
    {ops : List Op} {s : State} {L : Finset (List Label)}
    (hrun : Run (State.step crates bucket) anyStep (.init storage) ops s)
    (hkind : ∀ op ∈ ops, ofKind (fun _ => True) L op) (hcount : L.card < 2 ^ 32)
    (hdistinct : Set.InjOn (fingerprint crates) L) :
    (storageReader crates s.storage bucket).Consistent (storedSpec s.storage bucket) ∧
      (∀ terms, ∃ index, getInvertedIndexTerms crates s.storage bucket terms = .ok index) ∧
      ∀ id, getForwardIndexOne s.storage bucket id = .ok (storedSpec s.storage bucket id) := by
  have hinv : BucketInvariant crates bucket (fun _ => True) L False s := by
    refine (hrun.and_labels fun op hop _ => hkind op hop).invariant
      (bucketInvariant_init hstorage) fun s op s' hinv hok hstep => ?_
    exact bucketInvariant_step hcrates hcount hdistinct hinv hok.2 False.elim hstep
  obtain ⟨G, hpart⟩ : ∃ G, StoredPart crates bucket (fun _ => True) G s.storage := by
    cases htsdb : s.tsdb with
    | some tsdb =>
      obtain ⟨G, hcataloged, -⟩ := hinv.opened tsdb htsdb
      exact ⟨G, hcataloged.stored⟩
    | none => exact ⟨_, storedPart_of_noRecords (hinv.closed htsdb).1⟩
  refine ⟨storageReader_consistent hpart.mem_postings_iff, fun terms => ?_, fun id => ?_⟩
  · exact exists_fetchAll (fun term => getInvertedIndexTerm_iff.mpr ⟨rfl, hpart.roaring term⟩) terms
  · refine getForwardIndexOne_iff.mpr ⟨rfl, fun v hv => ?_⟩
    obtain ⟨spec, -, hencode, -⟩ := hpart.forward id v hv
    exact ⟨_, ForwardIndexValue.decode_encode hencode⟩

theorem stored_reads_agree_two_series :
    ∃ s, Run (State.step plainCrates (.hour 0)) anyStep (.init ∅) twoSeriesOps s ∧
      (storedSpec s.storage (.hour 0) 1).isSome = true ∧
      (storageReader plainCrates s.storage (.hour 0)).Consistent
        (storedSpec s.storage (.hour 0)) := by
  obtain ⟨s, hrun, hstored⟩ : ∃ s, Run (State.step plainCrates (.hour 0)) anyStep (.init ∅)
      twoSeriesOps s ∧ (storedSpec s.storage (.hour 0) 1).isSome = true :=
    Run.exists_of_check (by decide +kernel)
  have hkind : ∀ op ∈ twoSeriesOps, ofKind (fun _ => True) (ingestedLabels twoSeriesOps) op := by
    intro op hop
    cases op with
    | ingest => exact fun series hseries => ⟨trivial, mem_ingestedLabels hop hseries⟩
    | drop => simp [twoSeriesOps] at hop
    | load | freeze | flush => trivial
  exact ⟨s, hrun, hstored, (stored_reads_agree (Crates.fixedWidth_roundTrip _) (noRecords_empty _)
    hrun hkind (by decide +kernel) (by decide +kernel)).1⟩

end

end OpenData.Timeseries
