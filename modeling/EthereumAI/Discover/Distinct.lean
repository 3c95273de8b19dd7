import Mathlib
import EthereumAI.Discover.Table

/-! # Distinct entries

The table keeps each node in the bucket of its hash, and the IDs of a bucket's entries and
replacements apart: `bump` and `bumpOrAdd` look the ID up among the entries before adding it,
`addReplacement` among the replacements, a node added to the entries leaves the replacements,
and `replace` moves a replacement, whose ID no entry has, over the last entry. The IP counters
play no part. Every table the calls build from `newTable` keeps this, so no node is twice among
its entries.
-/

namespace EthereumAI.Discover

/-- One bucket's lists: every node in the bucket `place` gives its hash, and no ID twice among
the entries, among the replacements, or between the two. -/
structure Sound (place : Hash → Fin nBuckets) (b : Fin nBuckets) (entries replacements : List Node) : Prop where
  placed : ∀ e ∈ entries ++ replacements, place e.sha = b
  entriesNodup : (entries.map Node.ID).Nodup
  replacementsNodup : (replacements.map Node.ID).Nodup
  apart : ∀ e ∈ entries, ∀ r ∈ replacements, e.ID ≠ r.ID

/-- Every bucket of the table is sound. -/
def Table.Distinct (tab : Table) : Prop :=
  ∀ b, Sound tab.bucket b (tab.buckets b).entries (tab.buckets b).replacements

/-! ## The lists of a bucket -/

section Lists

variable {l : List Node} {n e : Node}

theorem nodup_map_of_subperm {l' : List Node} (h : l'.Subperm l) (hl : (l.map Node.ID).Nodup) :
    (l'.map Node.ID).Nodup := by
  obtain ⟨k, hp, hs⟩ := h
  exact (hp.map Node.ID).nodup_iff.mp ((hs.map Node.ID).nodup hl)

theorem ID_ne_of_mem_deleteNode (hl : (l.map Node.ID).Nodup) (he : e ∈ deleteNode l n) : e.ID ≠ n.ID := by
  unfold deleteNode at he
  by_cases hex : ∃ a ∈ l, (a.ID == n.ID) = true
  · obtain ⟨a, ha, hpa⟩ := hex
    obtain ⟨c, l₁, l₂, hl₁, hc, rfl, heq⟩ := List.exists_of_eraseP (p := fun a => a.ID == n.ID) ha hpa
    rw [heq] at he
    have hcID : c.ID = n.ID := by simpa using hc
    rcases List.mem_append.mp he with he | he
    · simpa using hl₁ e he
    · -- `c` was the one node of `n`'s ID
      rw [List.map_append, List.map_cons, List.nodup_append, List.nodup_cons] at hl
      have hne : c.ID ∉ l₂.map Node.ID := hl.2.1.1
      intro heID
      exact hne (hcID ▸ heID ▸ List.mem_map_of_mem he)
  · simp only [not_exists, not_and] at hex
    rw [List.eraseP_of_forall_not (fun a ha => by simpa using hex a ha)] at he
    simpa using hex e he

theorem pushNode_sublist (max : ℕ) : (pushNode l n max).1.Sublist (n :: l) := by
  unfold pushNode
  split_ifs
  · exact List.Sublist.refl _
  · exact (List.dropLast_sublist l).cons_cons n

variable {place : Hash → Fin nBuckets} {b : Fin nBuckets} {E R E' R' : List Node}

theorem Sound.subperm (h : Sound place b E R) (hE : E'.Subperm E) (hR : R'.Subperm R) : Sound place b E' R' where
  placed := fun e he => by
    rcases List.mem_append.mp he with he | he
    · exact h.placed e (List.mem_append_left _ (hE.subset he))
    · exact h.placed e (List.mem_append_right _ (hR.subset he))
  entriesNodup := nodup_map_of_subperm hE h.entriesNodup
  replacementsNodup := nodup_map_of_subperm hR h.replacementsNodup
  apart := fun e he r hr => h.apart e (hE.subset he) r (hR.subset hr)

theorem Sound.cons_entry (h : Sound place b E R) (hp : place n.sha = b) (hE : ∀ e ∈ E, e.ID ≠ n.ID)
    (hR : ∀ r ∈ R, n.ID ≠ r.ID) : Sound place b (n :: E) R where
  placed := fun e he => by
    rw [List.cons_append] at he
    rcases List.mem_cons.mp he with rfl | he
    · exact hp
    · exact h.placed e he
  entriesNodup := by
    rw [List.map_cons, List.nodup_cons]
    exact ⟨fun hm => by obtain ⟨e, he, heq⟩ := List.mem_map.mp hm; exact hE e he heq, h.entriesNodup⟩
  replacementsNodup := h.replacementsNodup
  apart := fun e he r hr => by
    rcases List.mem_cons.mp he with rfl | he
    · exact hR r hr
    · exact h.apart e he r hr

theorem Sound.cons_replacement (h : Sound place b E R) (hp : place n.sha = b) (hR : ∀ r ∈ R, r.ID ≠ n.ID)
    (hE : ∀ e ∈ E, e.ID ≠ n.ID) : Sound place b E (n :: R) where
  placed := fun e he => by
    rcases List.mem_append.mp he with he | he
    · exact h.placed e (List.mem_append_left _ he)
    · rcases List.mem_cons.mp he with rfl | he
      · exact hp
      · exact h.placed e (List.mem_append_right _ he)
  entriesNodup := h.entriesNodup
  replacementsNodup := by
    rw [List.map_cons, List.nodup_cons]
    exact ⟨fun hm => by obtain ⟨r, hr, heq⟩ := List.mem_map.mp hm; exact hR r hr heq, h.replacementsNodup⟩
  apart := fun e he r hr => by
    rcases List.mem_cons.mp hr with rfl | hr
    · exact hE e he
    · exact h.apart e he r hr

/-! What each change of a bucket's lists keeps. -/

theorem Sound.bump (h : Sound place b E R) (hn : ∃ e ∈ E, e.ID = n.ID) (hp : place n.sha = b) :
    Sound place b (n :: deleteNode E n) R := by
  obtain ⟨e, he, hid⟩ := hn
  apply (h.subperm (List.eraseP_sublist).subperm (List.Subperm.refl R)).cons_entry hp
  · exact fun e' he' => ID_ne_of_mem_deleteNode h.entriesNodup he'
  · intro r hr heq
    exact h.apart e he r hr (hid.trans heq)

theorem Sound.add (h : Sound place b E R) (hp : place n.sha = b) (hE : ∀ e ∈ E, e.ID ≠ n.ID) (max : ℕ) :
    Sound place b (pushNode E n max).1 (deleteNode R n) := by
  have hR : Sound place b E (deleteNode R n) := h.subperm (List.Subperm.refl E) (List.eraseP_sublist).subperm
  have hn := hR.cons_entry hp hE fun r hr => (ID_ne_of_mem_deleteNode h.replacementsNodup hr).symm
  exact hn.subperm (pushNode_sublist max).subperm (List.Subperm.refl _)

theorem Sound.addReplacement (h : Sound place b E R) (hp : place n.sha = b) (hR : ∀ r ∈ R, r.ID ≠ n.ID)
    (hE : ∀ e ∈ E, e.ID ≠ n.ID) (max : ℕ) : Sound place b E (pushNode R n max).1 :=
  (h.cons_replacement hp hR hE).subperm (List.Subperm.refl E) (pushNode_sublist max).subperm

theorem Sound.replace (h : Sound place b E R) {r : Node} (hr : r ∈ R) :
    Sound place b (E.dropLast ++ [r]) (deleteNode R r) := by
  have hR : Sound place b E (deleteNode R r) := h.subperm (List.Subperm.refl E) (List.eraseP_sublist).subperm
  have hn := hR.cons_entry (h.placed r (List.mem_append_right _ hr)) (fun e he => h.apart e he r hr)
    fun r' hr' => (ID_ne_of_mem_deleteNode h.replacementsNodup hr').symm
  have hsub : (E.dropLast ++ [r]).Subperm (r :: E) :=
    (List.perm_append_singleton r E.dropLast).subperm.trans ((List.dropLast_sublist E).cons_cons r).subperm
  exact hn.subperm hsub (List.Subperm.refl _)

end Lists

/-! ## The table -/

section Table

variable {tab tab₀ : Table} {b : Fin nBuckets} {n : Node}

theorem bucket_eq_of_self (h : tab.self = tab₀.self) : tab.bucket = tab₀.bucket := by
  obtain ⟨buckets, ips, self⟩ := tab
  dsimp only at h
  subst h
  rfl

/-- `tab` has the local node and the lists of every bucket of `tab₀`: what the IP counters
change. -/
structure SameLists (tab₀ tab : Table) : Prop where
  self : tab.self = tab₀.self
  entries : ∀ b, (tab.buckets b).entries = (tab₀.buckets b).entries
  replacements : ∀ b, (tab.buckets b).replacements = (tab₀.buckets b).replacements

theorem SameLists.refl : SameLists tab tab := ⟨rfl, fun _ => rfl, fun _ => rfl⟩

theorem SameLists.trans {tab₁ : Table} (h₁ : SameLists tab₀ tab₁) (h₂ : SameLists tab₁ tab) : SameLists tab₀ tab :=
  ⟨h₂.self.trans h₁.self, fun b => (h₂.entries b).trans (h₁.entries b),
    fun b => (h₂.replacements b).trans (h₁.replacements b)⟩

theorem SameLists.distinct (hs : SameLists tab₀ tab) (h : tab₀.Distinct) : tab.Distinct := by
  intro b
  rw [bucket_eq_of_self hs.self, hs.entries b, hs.replacements b]
  exact h b

theorem modifyBucket_buckets (f : bucket → bucket) (b' : Fin nBuckets) :
    (tab.modifyBucket b f).buckets b' = if b' = b then f (tab.buckets b) else tab.buckets b' := by
  simp [Table.modifyBucket, Function.update_apply]

theorem sameLists_modifyBucket {f : bucket → bucket} (he : (f (tab.buckets b)).entries = (tab.buckets b).entries)
    (hr : (f (tab.buckets b)).replacements = (tab.buckets b).replacements) : SameLists tab (tab.modifyBucket b f) where
  self := by rfl
  entries b' := by
    rw [modifyBucket_buckets]
    split_ifs with hb
    · rw [hb, he]
    · rfl
  replacements b' := by
    rw [modifyBucket_buckets]
    split_ifs with hb
    · rw [hb, hr]
    · rfl

theorem Table.Distinct.modifyBucket {f : Discover.bucket → Discover.bucket} (h : tab.Distinct)
    (hb : Sound tab.bucket b (f (tab.buckets b)).entries (f (tab.buckets b)).replacements) :
    (tab.modifyBucket b f).Distinct := by
  intro b'
  rw [bucket_eq_of_self rfl, modifyBucket_buckets]
  split_ifs with hb'
  · rw [hb']
    exact hb
  · exact h b'

theorem addIP_sameLists (ip : Bytes) : SameLists tab (tab.addIP b ip).2 := by
  unfold Table.addIP
  split_ifs
  · exact .refl
  · split
    · exact .refl
    · split
      · exact ⟨rfl, fun _ => rfl, fun _ => rfl⟩
      · dsimp only
        refine SameLists.trans ?_ (sameLists_modifyBucket rfl rfl)
        exact ⟨rfl, fun _ => rfl, fun _ => rfl⟩

theorem removeIP_sameLists (ip : Bytes) : SameLists tab (tab.removeIP b ip) := by
  unfold Table.removeIP
  split_ifs
  · exact .refl
  · refine SameLists.trans ?_ (sameLists_modifyBucket rfl rfl)
    exact ⟨rfl, fun _ => rfl, fun _ => rfl⟩

end Table

/-! ## The calls -/

section Calls

variable {tab : Table} {b : Fin nBuckets} {n : Node}

theorem Table.Distinct.bumpOrAdd (h : tab.Distinct) (hp : tab.bucket n.sha = b) : (tab.bumpOrAdd b n).2.Distinct := by
  unfold Table.bumpOrAdd bucket.bump
  by_cases hany : (tab.buckets b).entries.any (fun e => e.ID == n.ID) = true
  · -- `n`'s ID is an entry: moved to the front
    rw [if_pos hany]
    obtain ⟨e, he, hid⟩ := List.any_eq_true.mp hany
    exact h.modifyBucket ((h b).bump ⟨e, he, by simpa using hid⟩ hp)
  · rw [if_neg hany]
    dsimp only
    split_ifs with hfull
    · exact h
    have hs := @addIP_sameLists tab b n.IP
    rcases hadd : tab.addIP b n.IP with ⟨_ | _, tab'⟩ <;> rw [hadd] at hs <;> dsimp only at hs ⊢
    · exact hs.distinct h
    · -- admitted: added to the entries of the table with the IP counted
      apply (hs.distinct h).modifyBucket
      rw [bucket_eq_of_self hs.self, hs.entries b, hs.replacements b]
      refine (h b).add hp (fun e he heq => hany ?_) bucketSize
      exact List.any_eq_true.mpr ⟨e, he, by simpa using heq⟩

theorem bumpOrAdd_false (h : (tab.bumpOrAdd b n).1 = false) :
    SameLists tab (tab.bumpOrAdd b n).2 ∧ ∀ e ∈ (tab.buckets b).entries, e.ID ≠ n.ID := by
  unfold Table.bumpOrAdd bucket.bump at h ⊢
  by_cases hany : (tab.buckets b).entries.any (fun e => e.ID == n.ID) = true
  · rw [if_pos hany] at h
    simp at h
  have hne : ∀ e ∈ (tab.buckets b).entries, e.ID ≠ n.ID := fun e he heq =>
    hany (List.any_eq_true.mpr ⟨e, he, by simpa using heq⟩)
  rw [if_neg hany] at h ⊢
  dsimp only at h ⊢
  refine ⟨?_, hne⟩
  split_ifs at h ⊢ with hfull
  · exact .refl
  have hs := @addIP_sameLists tab b n.IP
  rcases hadd : tab.addIP b n.IP with ⟨_ | _, tab'⟩ <;> rw [hadd] at hs h <;> dsimp only at hs h ⊢
  · exact hs
  · simp at h

theorem Table.Distinct.addReplacement (h : tab.Distinct) (hp : tab.bucket n.sha = b)
    (hE : ∀ e ∈ (tab.buckets b).entries, e.ID ≠ n.ID) : (tab.addReplacement b n).Distinct := by
  unfold Table.addReplacement
  split_ifs with hany
  · exact h
  have hs := @addIP_sameLists tab b n.IP
  rcases hadd : tab.addIP b n.IP with ⟨_ | _, tab'⟩ <;> rw [hadd] at hs <;> dsimp only at hs ⊢
  · exact hs.distinct h
  rcases hpush : pushNode (tab'.buckets b).replacements n maxReplacements with ⟨replacements, removed⟩
  have hR : ∀ r ∈ (tab.buckets b).replacements, r.ID ≠ n.ID := fun r hr heq =>
    hany (List.any_eq_true.mpr ⟨r, hr, by simpa using heq⟩)
  have hd : (tab'.modifyBucket b fun bk => { bk with replacements := replacements }).Distinct := by
    apply (hs.distinct h).modifyBucket
    have hrep : replacements = (pushNode (tab.buckets b).replacements n maxReplacements).1 := by
      rw [← hs.replacements b, hpush]
    dsimp only
    rw [bucket_eq_of_self hs.self, hs.entries b, hrep]
    exact (h b).addReplacement hp hR hE maxReplacements
  cases removed with
  | some removed => exact (removeIP_sameLists removed.IP).distinct hd
  | none => exact hd

theorem Table.Distinct.add (h : tab.Distinct) (n : Node) : (tab.add n).Distinct := by
  unfold Table.add
  dsimp only
  rcases hbump : tab.bumpOrAdd (tab.bucket n.sha) n with ⟨_ | _, tab'⟩
  · -- not added: `n` goes to the replacements
    obtain ⟨hs, hE⟩ := bumpOrAdd_false (by rw [hbump])
    rw [hbump] at hs
    apply (hs.distinct h).addReplacement (by rw [bucket_eq_of_self hs.self])
    rw [hs.entries]
    exact hE
  · have hd := h.bumpOrAdd (b := tab.bucket n.sha) (n := n) rfl
    rw [hbump] at hd
    exact hd

theorem Table.Distinct.stuff (h : tab.Distinct) (nodes : List Node) : (tab.stuff nodes).Distinct := by
  unfold Table.stuff
  induction nodes generalizing tab with
  | nil => exact h
  | cons n nodes ih =>
    rw [List.foldl_cons]
    apply ih
    dsimp only
    split_ifs
    · exact h
    · exact h.bumpOrAdd rfl
    · exact h

theorem Table.Distinct.deleteInBucket (h : tab.Distinct) (n : Node) : (tab.deleteInBucket b n).Distinct := by
  unfold Table.deleteInBucket
  apply (removeIP_sameLists n.IP).distinct
  apply h.modifyBucket
  exact (h b).subperm (List.eraseP_sublist).subperm (List.Subperm.refl _)

theorem Table.Distinct.delete (h : tab.Distinct) (n : Node) : (tab.delete n).Distinct :=
  h.deleteInBucket n

theorem getD_mem {α : Type} {l : List α} {d : α} (hd : d ∈ l) (i : ℕ) : l.getD i d ∈ l := by
  rw [List.getD_eq_getElem?_getD]
  cases hi : l[i]? with
  | none => exact hd
  | some x => exact List.mem_of_getElem? hi

theorem Table.Distinct.replace (h : tab.Distinct) (last : Node) (choice : ℕ) : (tab.replace b last choice).2.Distinct := by
  unfold Table.replace
  split_ifs
  · exact h
  split
  · exact h.deleteInBucket last
  · rename_i r₀ rs hrs
    dsimp only
    apply (removeIP_sameLists last.IP).distinct
    apply h.modifyBucket
    have hr : (r₀ :: rs).getD (choice % (rs.length + 1)) r₀ ∈ (tab.buckets b).replacements := by
      rw [hrs]
      exact getD_mem List.mem_cons_self _
    exact (h b).replace hr

theorem Table.Distinct.doRevalidate (h : tab.Distinct) (bi : Fin nBuckets) (alive : Bool) (choice : ℕ) :
    (tab.doRevalidate bi alive choice).Distinct := by
  unfold Table.doRevalidate
  split
  · exact h
  · rename_i last hlast
    have hmem : last ∈ (tab.buckets bi).entries := List.mem_of_getLast? hlast
    split_ifs
    · -- the last entry answered: moved to the front
      apply h.modifyBucket
      have hany : (tab.buckets bi).entries.any (fun e => e.ID == last.ID) = true :=
        List.any_eq_true.mpr ⟨last, hmem, by simp⟩
      unfold bucket.bump
      rw [if_pos hany]
      exact (h bi).bump ⟨last, hmem, rfl⟩ ((h bi).placed last (List.mem_append_left _ hmem))
    · exact h.replace last choice

theorem Table.Distinct.step (h : tab.Distinct) (op : Op) : (tab.step op).Distinct := by
  cases op with
  | add n => exact h.add n
  | stuff nodes => exact h.stuff nodes
  | delete n => exact h.delete n
  | revalidate bi alive choice => exact h.doRevalidate bi alive choice

theorem Table.Distinct.run (h : tab.Distinct) (ops : List Op) : (tab.run ops).Distinct := by
  induction ops generalizing tab with
  | nil => exact h
  | cons op ops ih => exact ih (h.step op)

theorem newTable_distinct (self : Node) : (newTable self).Distinct := fun _ =>
  { placed := by simp [newTable]
    entriesNodup := List.nodup_nil
    replacementsNodup := List.nodup_nil
    apart := by simp [newTable] }

theorem Table.Distinct.allEntries_nodup (h : tab.Distinct) : tab.allEntries.Nodup := by
  rw [Table.allEntries, List.nodup_flatMap]
  constructor
  · intro b _
    exact (h b).entriesNodup.of_map _
  · -- a node in two buckets would be placed in both
    apply (List.nodup_finRange nBuckets).imp
    intro b b' hne e he he'
    have h₁ := (h b).placed e (List.mem_append_left _ he)
    have h₂ := (h b').placed e (List.mem_append_left _ he')
    exact hne (h₁.symm.trans h₂)

end Calls

end EthereumAI.Discover
