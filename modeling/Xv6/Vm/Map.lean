import Xv6.Vm.Uvm

set_option autoImplicit false

/-!
# Mapping fresh pages: `walkpgdir`, `mappages` and `setupkvm`

`mappages` maps a range page by page, and `walkpgdir` allocates a page table for each directory
entry of the range that has none. `MapWf` is what this needs of the memory: a free list of
distinct pages that `kfree` takes, and a directory whose page tables are distinct pages that are
neither the directory nor free. Over a range that has no present PTE, with a free page for each
directory entry of the range that has no table, `mappages` maps every page of the range, changes
no other PTE and no directory entry outside the range, keeps `MapWf`, and takes its tables from
the head of the free list (`mappagesLoop_fresh`).
-/
namespace Xv6

/-- What mapping into directory `d` needs of the memory. -/
structure MapWf (L : Linker) (m : Mem) (d : Nat) : Prop where
  nodup : m.freelist.Nodup
  free_ok : ∀ v ∈ m.freelist, Freeable L v
  free_word : ∀ v ∈ m.freelist, v < WORD
  dir_not_free : d ∉ m.freelist
  table_ne_dir : ∀ x < 1024, Present (m.pt d x) → m.ptPage d x ≠ d
  table_not_free : ∀ x < 1024, Present (m.pt d x) → m.ptPage d x ∉ m.freelist
  table_inj : ∀ x < 1024, ∀ y < 1024, Present (m.pt d x) → Present (m.pt d y) →
    m.ptPage d x = m.ptPage d y → x = y

/-- The directory entries among `S` that have no page table. -/
def holes (m : Mem) (d : Nat) (S : Finset Nat) : Nat :=
  (S.filter fun x => ¬ Present (m.pt d x)).card

section Entry

theorem PTE_ADDR_or {a f : Nat} (ha : a % PGSIZE = 0) (hw : a < WORD) (hf : f < PGSIZE) :
    PTE_ADDR (a ||| f) = a :=
  FlagWord.addr_of_or (k := 12) (w := 32) (by decide) ha hw hf

theorem present_with_P (x f g : Nat) : Present (x ||| PTE_P ||| f ||| g) := by
  rw [present_iff, Nat.testBit_or, Nat.testBit_or, Nat.testBit_or]
  simp [PTE_P]

theorem ptPage_of_entry {L : Linker} {r : Nat} (hr : Freeable L r) (hlt : r < WORD) :
    P2V (PTE_ADDR (V2P r ||| PTE_P ||| PTE_W ||| PTE_U)) = r := by
  obtain ⟨hal, hend, hphys⟩ := hr
  have hk : KERNBASE ≤ r := by
    have h₁ := L.kernlink_le_data
    have h₂ := L.data_le_end
    have h₃ : KERNBASE ≤ KERNLINK := by unfold KERNLINK; omega
    omega
  rw [Nat.or_assoc, Nat.or_assoc, show PTE_P ||| (PTE_W ||| PTE_U) = 7 by decide,
    PTE_ADDR_or (by unfold V2P WORD KERNBASE PGSIZE at *; omega)
      (by unfold V2P WORD at *; omega) (by decide),
    P2V_V2P hk hlt]

end Entry

namespace MapWf

variable {L : Linker} {m : Mem} {d : Nat}

theorem kalloc_head (hw : MapWf L m d) {r : Nat} {rest : List Nat}
    (hfl : m.freelist = r :: rest) :
    Freeable L r ∧ r < WORD ∧ r ∉ rest ∧ r ≠ d ∧
      ∀ x < 1024, Present (m.pt d x) → m.ptPage d x ≠ r := by
  have hmem : r ∈ m.freelist := by rw [hfl]; exact List.mem_cons_self
  refine ⟨hw.free_ok r hmem, hw.free_word r hmem, ?_, ?_, ?_⟩
  · have hnd := hw.nodup
    rw [hfl] at hnd
    exact (List.nodup_cons.1 hnd).1
  · rintro rfl
    exact hw.dir_not_free hmem
  · intro x hx hp h
    exact hw.table_not_free x hx hp (h ▸ hmem)

theorem pop (hw : MapWf L m d) {r : Nat} {rest : List Nat} (hfl : m.freelist = r :: rest) :
    MapWf L { m with freelist := rest } d := by
  have hsub : ∀ v ∈ rest, v ∈ m.freelist := fun v hv => by rw [hfl]; exact List.mem_cons_of_mem _ hv
  refine ⟨?_, fun v hv => hw.free_ok v (hsub v hv), fun v hv => hw.free_word v (hsub v hv),
    fun h => hw.dir_not_free (hsub d h), hw.table_ne_dir, fun x hx hp h => hw.table_not_free x hx hp (hsub _ h), hw.table_inj⟩
  have hnd := hw.nodup
  rw [hfl] at hnd
  exact (List.nodup_cons.1 hnd).2

theorem of_pt_dir (hw : MapWf L m d) {m' : Mem} (hfl : m'.freelist = m.freelist)
    (hpde : m'.pt d = m.pt d) : MapWf L m' d := by
  refine ⟨hfl ▸ hw.nodup, hfl ▸ hw.free_ok, hfl ▸ hw.free_word, hfl ▸ hw.dir_not_free, ?_, ?_, ?_⟩
  · intro y hy hpy
    rw [Mem.ptPage_congr hpde]
    rw [hpde] at hpy
    exact hw.table_ne_dir y hy hpy
  · intro y hy hpy
    rw [Mem.ptPage_congr hpde, hfl]
    rw [hpde] at hpy
    exact hw.table_not_free y hy hpy
  · intro y hy z hz hpy hpz
    rw [Mem.ptPage_congr hpde, Mem.ptPage_congr hpde]
    rw [hpde] at hpy hpz
    exact hw.table_inj y hy z hz hpy hpz

theorem store_table (hw : MapWf L m d) {x : Nat} (hx : x < 1024) (hp : Present (m.pt d x))
    (i v : Nat) : MapWf L (m.store (m.ptPage d x) i v) d := by
  have hpde : (m.store (m.ptPage d x) i v).pt d = m.pt d := by
    funext y
    rw [Mem.store_pt]
    simp [Ne.symm (hw.table_ne_dir x hx hp)]
  exact hw.of_pt_dir rfl hpde

end MapWf

section Walk

variable {L : Linker} {m : Mem} {d : Nat}

theorem walkpgdir_present {a : Nat} (hp : Present (m.pt d (PDX a))) (alloc : Bool) :
    walkpgdir m d a alloc = (some (m.ptPage d (PDX a), PTX a), m) := by
  unfold walkpgdir Mem.ptPage
  exact if_pos hp

theorem walkpgdir_fresh {a r : Nat} {rest : List Nat}
    (hnp : ¬ Present (m.pt d (PDX a))) (hfl : m.freelist = r :: rest) :
    walkpgdir m d a true = (some (r, PTX a),
      ({ m with freelist := rest }.fill r 0).store d (PDX a)
        (V2P r ||| PTE_P ||| PTE_W ||| PTE_U)) := by
  obtain h | h | h := walkpgdir_true (rfl : walkpgdir m d a true = _)
  · exact absurd h.1 hnp
  · rw [hfl] at h
    cases h.2.1
  · obtain ⟨-, pgtab, rest', hfl', hr, hm⟩ := h
    rw [hfl] at hfl'
    cases hfl'
    exact Prod.ext hr hm

theorem MapWf.fresh_table (hw : MapWf L m d) {a r : Nat} {rest : List Nat}
    (hfl : m.freelist = r :: rest) :
    MapWf L (({ m with freelist := rest }.fill r 0).store d (PDX a)
        (V2P r ||| PTE_P ||| PTE_W ||| PTE_U)) d ∧
      (({ m with freelist := rest }.fill r 0).store d (PDX a)
        (V2P r ||| PTE_P ||| PTE_W ||| PTE_U)).ptPage d (PDX a) = r ∧
      (∀ x ≠ PDX a, (({ m with freelist := rest }.fill r 0).store d (PDX a)
        (V2P r ||| PTE_P ||| PTE_W ||| PTE_U)).pt d x = m.pt d x) ∧
      ∀ va, (({ m with freelist := rest }.fill r 0).store d (PDX a)
        (V2P r ||| PTE_P ||| PTE_W ||| PTE_U)).pte d va =
          if PDX va = PDX a then 0 else m.pte d va := by
  obtain ⟨hfree, hword, hrest, hrd, hrt⟩ := hw.kalloc_head hfl
  obtain ⟨m', hm'⟩ : ∃ m', m' = ({ m with freelist := rest }.fill r 0).store d (PDX a)
      (V2P r ||| PTE_P ||| PTE_W ||| PTE_U) := ⟨_, rfl⟩
  rw [← hm']
  have hpde : ∀ x, m'.pt d x =
      if x = PDX a then V2P r ||| PTE_P ||| PTE_W ||| PTE_U else m.pt d x := by
    intro x
    rw [hm', Mem.store_pt, Mem.fill_pt, if_neg (Ne.symm hrd)]
    simp only [true_and]
  have hother : ∀ x ≠ PDX a, m'.pt d x = m.pt d x := fun x hx => by rw [hpde, if_neg hx]
  have hnew : m'.ptPage d (PDX a) = r := by
    unfold Mem.ptPage
    rw [hpde, if_pos rfl]
    exact ptPage_of_entry hfree hword
  have hpres : Present (m'.pt d (PDX a)) := by
    rw [hpde, if_pos rfl]
    exact present_with_P _ _ _
  have hpage : ∀ x ≠ PDX a, m'.ptPage d x = m.ptPage d x := by
    intro x hx
    unfold Mem.ptPage
    rw [hother x hx]
  have hrow : ∀ t i, t ≠ d → m'.pt t i = if t = r then 0 else m.pt t i := by
    intro t i htd
    rw [hm', Mem.store_pt, if_neg (fun h => htd h.1), Mem.fill_pt]
    by_cases htr : t = r
    · rw [if_pos htr, if_pos htr, UInt8.toNat_zero, Nat.zero_mul]
    · rw [if_neg htr, if_neg htr]
  have hfl' : m'.freelist = rest := by rw [hm']; rfl
  have hsub : ∀ v ∈ rest, v ∈ m.freelist := fun v hv => by
    rw [hfl]
    exact List.mem_cons_of_mem _ hv
  refine ⟨⟨?_, ?_, ?_, ?_, ?_, ?_, ?_⟩, hnew, hother, fun va => ?_⟩
  · rw [hfl']
    exact (List.nodup_cons.1 (hfl ▸ hw.nodup)).2
  · rw [hfl']
    exact fun v hv => hw.free_ok v (hsub v hv)
  · rw [hfl']
    exact fun v hv => hw.free_word v (hsub v hv)
  · rw [hfl']
    exact fun h => hw.dir_not_free (hsub d h)
  · intro x hx hp
    by_cases hxa : x = PDX a
    · subst hxa
      rw [hnew]
      exact hrd
    · rw [hpage x hxa]
      rw [hother x hxa] at hp
      exact hw.table_ne_dir x hx hp
  · intro x hx hp
    by_cases hxa : x = PDX a
    · subst hxa
      rw [hnew, hfl']
      exact hrest
    · rw [hpage x hxa, hfl']
      rw [hother x hxa] at hp
      exact fun h => hw.table_not_free x hx hp (hsub _ h)
  · intro x hx y hy hpx hpy hxy
    by_cases hxa : x = PDX a
    · by_cases hya : y = PDX a
      · rw [hxa, hya]
      · rw [hxa, hnew, hpage y hya] at hxy
        rw [hother y hya] at hpy
        exact absurd hxy.symm (hrt y hy hpy)
    · by_cases hya : y = PDX a
      · rw [hya, hnew, hpage x hxa] at hxy
        rw [hother x hxa] at hpx
        exact absurd hxy (hrt x hx hpx)
      · rw [hpage x hxa, hpage y hya] at hxy
        rw [hother x hxa] at hpx
        rw [hother y hya] at hpy
        exact hw.table_inj x hx y hy hpx hpy hxy
  · rw [Mem.pte_eq, Mem.pte_eq]
    by_cases hva : PDX va = PDX a
    · rw [if_pos hva, hva, if_pos hpres, hnew, hrow r _ hrd, if_pos rfl]
    · rw [if_neg hva, hother _ hva, hpage _ hva]
      by_cases hp : Present (m.pt d (PDX va))
      · rw [if_pos hp, if_pos hp, hrow _ _ (hw.table_ne_dir _ (Mem.PDX_lt va) hp),
          if_neg (hrt _ (Mem.PDX_lt va) hp)]
      · rw [if_neg hp, if_neg hp]

theorem MapWf.walk_alloc (hw : MapWf L m d) (a : Nat)
    (hroom : ¬ Present (m.pt d (PDX a)) → m.freelist ≠ []) :
    ∃ m₁ taken, walkpgdir m d a true = (some (m₁.ptPage d (PDX a), PTX a), m₁) ∧
      MapWf L m₁ d ∧ Present (m₁.pt d (PDX a)) ∧ (∀ va, m₁.pte d va = m.pte d va) ∧
      (∀ x ≠ PDX a, m₁.pt d x = m.pt d x) ∧ m.freelist = taken ++ m₁.freelist ∧
      (Present (m.pt d (PDX a)) → taken = [] ∧ m₁ = m) ∧
      (¬ Present (m.pt d (PDX a)) → taken = [m₁.ptPage d (PDX a)]) ∧
      (∀ t, t ≠ d → t ∉ taken → ∀ i, m₁.pt t i = m.pt t i) ∧
      (∀ b, (∀ v ∈ taken, ¬ (v ≤ b ∧ b < v + PGSIZE)) → m₁.bytes b = m.bytes b) := by
  by_cases hp : Present (m.pt d (PDX a))
  · refine ⟨m, [], ?_, hw, hp, fun _ => rfl, fun _ _ => rfl, rfl, fun _ => ⟨rfl, rfl⟩,
      fun h => absurd hp h, fun _ _ _ _ => rfl, fun _ _ => rfl⟩
    exact walkpgdir_present hp true
  · obtain ⟨r, rest, hfl⟩ := List.exists_cons_of_ne_nil (hroom hp)
    obtain ⟨hw₁, hnew, hother, hpte⟩ := hw.fresh_table hfl
    obtain ⟨-, -, -, hrd, -⟩ := hw.kalloc_head hfl
    refine ⟨_, [r], ?_, hw₁, ?_, fun va => ?_, hother, by rw [hfl]; rfl, fun h => absurd h hp,
      fun _ => by rw [hnew], fun t htd htr i => ?_, fun b hb => ?_⟩
    · rw [walkpgdir_fresh hp hfl, hnew]
    · unfold Present
      rw [Mem.store_pt, if_pos ⟨rfl, rfl⟩]
      exact present_with_P _ _ _
    · rw [hpte va]
      split_ifs with hva
      · rw [Mem.pte_eq, hva, if_neg hp]
      · rfl
    · rw [Mem.store_pt, if_neg (fun h => htd h.1), Mem.fill_pt,
        if_neg (fun h => htr (by rw [h]; exact List.mem_singleton_self r))]
    · have hb' := hb r (List.mem_singleton_self r)
      simp only [Mem.store_bytes, Mem.fill, hb', if_false]

theorem page_ne {u v : Nat} (hu : u < WORD) (hv : v < WORD) (h : u / PGSIZE ≠ v / PGSIZE) :
    ¬ (PDX u = PDX v ∧ PTX u = PTX v) := by
  rw [PDX_eq, PDX_eq, PTX_eq, PTX_eq]
  unfold WORD PGSIZE at *
  omega

theorem holes_of_fill {m m' : Mem} {d x : Nat} {T : Finset Nat} (hx : x ∈ T)
    (hnp : ¬ Present (m.pt d x)) (hp : Present (m'.pt d x))
    (hother : ∀ y ≠ x, m'.pt d y = m.pt d y) : holes m' d T + 1 = holes m d T := by
  unfold holes
  have hset : T.filter (fun y => ¬ Present (m'.pt d y)) =
      (T.filter fun y => ¬ Present (m.pt d y)).erase x := by
    ext y
    simp only [Finset.mem_filter, Finset.mem_erase]
    by_cases hy : y = x
    · subst hy
      simp [hp]
    · rw [hother y hy]
      simp [hy]
  rw [hset, Finset.card_erase_add_one (Finset.mem_filter.2 ⟨hx, hnp⟩)]

theorem holes_congr {m m' : Mem} {d : Nat} (T : Finset Nat) (h : m'.pt d = m.pt d) :
    holes m' d T = holes m d T := by
  unfold holes
  rw [h]

theorem MapWf.mappagesLoop_first (hw : MapWf L m d) {a : Nat} {T : Finset Nat} (hT : PDX a ∈ T)
    (hfree : ¬ Present (m.pte d a)) (hroom : holes m d T ≤ m.freelist.length)
    (perm n pa : Nat) :
    ∃ m₂ taken, (mappagesLoop d perm n a pa m = match n with
        | 0 => .ok (0, m₂)
        | n + 1 => mappagesLoop d perm n ((a + PGSIZE) % WORD) ((pa + PGSIZE) % WORD) m₂) ∧
      MapWf L m₂ d ∧ m.freelist = taken ++ m₂.freelist ∧
      holes m₂ d T + taken.length = holes m d T ∧
      (∀ va, m₂.pte d va =
        if PDX va = PDX a ∧ PTX va = PTX a then pa ||| perm ||| PTE_P else m.pte d va) ∧
      (∀ x ≠ PDX a, m₂.pt d x = m.pt d x) ∧
      (m₂.ptPage d (PDX a) ∈ taken ∨
        (Present (m.pt d (PDX a)) ∧ m₂.ptPage d (PDX a) = m.ptPage d (PDX a))) ∧
      (∀ t, t ≠ d → t ∉ taken → (∀ x < 1024, Present (m.pt d x) → m.ptPage d x ≠ t) →
        ∀ i, m₂.pt t i = m.pt t i) ∧
      (∀ b, (∀ v ∈ taken, ¬ (v ≤ b ∧ b < v + PGSIZE)) → m₂.bytes b = m.bytes b) := by
  have hroom' : ¬ Present (m.pt d (PDX a)) → m.freelist ≠ [] := by
    intro hnp hnil
    have hpos : 0 < holes m d T :=
      Finset.card_pos.2 ⟨PDX a, Finset.mem_filter.2 ⟨hT, hnp⟩⟩
    rw [hnil] at hroom
    simp at hroom
    omega
  obtain ⟨m₁, taken, hwalk, hw₁, hp₁, hpte₁, hpde₁, hfl₁, hold₁, hnew₁, hpt₁, hbytes₁⟩ :=
    hw.walk_alloc a hroom'
  have hx : PDX a < 1024 := Mem.PDX_lt a
  have htd : m₁.ptPage d (PDX a) ≠ d := hw₁.table_ne_dir _ hx hp₁
  have hslot : ¬ (m₁.pt (m₁.ptPage d (PDX a)) (PTX a) &&& PTE_P ≠ 0) := by
    have h := hpte₁ a
    rw [Mem.pte_eq, if_pos hp₁] at h
    rw [h]
    exact hfree
  have hpde₂ : (m₁.store (m₁.ptPage d (PDX a)) (PTX a) (pa ||| perm ||| PTE_P)).pt d = m₁.pt d := by
    funext y
    rw [Mem.store_pt]
    simp [Ne.symm htd]
  refine ⟨m₁.store (m₁.ptPage d (PDX a)) (PTX a) (pa ||| perm ||| PTE_P), taken, ?_,
    hw₁.store_table hx hp₁ _ _, hfl₁, ?_, fun va => ?_, fun x hx' => ?_, ?_,
    fun t htd' htt htab i => ?_, fun b hb => ?_⟩
  · conv_lhs => unfold mappagesLoop
    rw [hwalk]
    dsimp only
    exact (if_neg hslot).trans rfl
  · rw [holes_congr T hpde₂]
    by_cases hp : Present (m.pt d (PDX a))
    · obtain ⟨rfl, rfl⟩ := hold₁ hp
      rfl
    · rw [hnew₁ hp, List.length_singleton]
      exact holes_of_fill hT hp hp₁ hpde₁
  · rw [Mem.pte_store_table hp₁ htd (fun y hy hpy h => hw₁.table_inj y hy _ hx hpy hp₁ h), hpte₁]
  · rw [hpde₂, hpde₁ x hx']
  · rw [Mem.ptPage_congr hpde₂]
    by_cases hp : Present (m.pt d (PDX a))
    · obtain ⟨rfl, rfl⟩ := hold₁ hp
      exact Or.inr ⟨hp, rfl⟩
    · left
      rw [hnew₁ hp]
      exact List.mem_singleton_self _
  · have hne : t ≠ m₁.ptPage d (PDX a) := by
      by_cases hp : Present (m.pt d (PDX a))
      · obtain ⟨rfl, rfl⟩ := hold₁ hp
        exact fun h => htab _ hx hp h.symm
      · intro h
        apply htt
        rw [hnew₁ hp, h]
        exact List.mem_singleton_self _
    rw [Mem.store_pt, if_neg (fun h => hne h.1), hpt₁ t htd' htt i]
  · rw [Mem.store_bytes, hbytes₁ b hb]

theorem MapWf.mappagesLoop_fresh (perm : Nat) (T : Finset Nat) (n : Nat) :
    ∀ (a pa : Nat) (m : Mem), MapWf L m d → a % PGSIZE = 0 → a + n * PGSIZE < WORD →
      pa + n * PGSIZE < WORD → (∀ k ≤ n, ¬ Present (m.pte d (a + k * PGSIZE))) →
      (∀ k ≤ n, PDX (a + k * PGSIZE) ∈ T) → holes m d T ≤ m.freelist.length →
      ∃ m' taken, mappagesLoop d perm n a pa m = .ok (0, m') ∧ MapWf L m' d ∧
        m.freelist = taken ++ m'.freelist ∧ holes m' d T + taken.length = holes m d T ∧
        (∀ k ≤ n, m'.pte d (a + k * PGSIZE) = pa + k * PGSIZE ||| perm ||| PTE_P) ∧
        (∀ va, (∀ k ≤ n, ¬ (PDX va = PDX (a + k * PGSIZE) ∧ PTX va = PTX (a + k * PGSIZE))) →
          m'.pte d va = m.pte d va) ∧
        (∀ x, (∀ k ≤ n, x ≠ PDX (a + k * PGSIZE)) → m'.pt d x = m.pt d x) ∧
        (∀ t, t ≠ d → t ∉ taken → (∀ x < 1024, Present (m.pt d x) → m.ptPage d x ≠ t) →
          ∀ i, m'.pt t i = m.pt t i) ∧
        (∀ b, (∀ v ∈ taken, ¬ (v ≤ b ∧ b < v + PGSIZE)) → m'.bytes b = m.bytes b) := by
  induction n with
  | zero =>
    intro a pa m hw ha _ _ hfree hT hroom
    have hT₀ : PDX a ∈ T := by simpa using hT 0 le_rfl
    obtain ⟨m₂, taken, hloop, hw₂, hfl, hholes, hpte, hpde, -, hpt, hbytes⟩ :=
      hw.mappagesLoop_first hT₀ (by simpa using hfree 0 le_rfl) hroom perm 0 pa
    refine ⟨m₂, taken, hloop, hw₂, hfl, hholes, fun k hk => ?_, fun va hva => ?_,
      fun x hx => ?_, hpt, hbytes⟩
    · obtain rfl : k = 0 := Nat.le_zero.1 hk
      simp [hpte]
    · rw [hpte, if_neg (by simpa using hva 0 le_rfl)]
    · exact hpde x (by simpa using hx 0 le_rfl)
  | succ n ih =>
    intro a pa m hw ha hend hpend hfree hT hroom
    have hT₀ : PDX a ∈ T := by simpa using hT 0 (Nat.zero_le _)
    obtain ⟨m₂, taken₁, hloop, hw₂, hfl₁, hholes₁, hpte₂, hpde₂, htab₂, hpt₂, hbytes₂⟩ :=
      hw.mappagesLoop_first hT₀ (by simpa using hfree 0 (Nat.zero_le _)) hroom perm (n + 1) pa
    have hnext : (a + PGSIZE) % WORD = a + PGSIZE := Nat.mod_eq_of_lt (by
      rw [Nat.add_mul] at hend
      have : PGSIZE ≤ n * PGSIZE + PGSIZE := Nat.le_add_left _ _
      omega)
    have hpnext : (pa + PGSIZE) % WORD = pa + PGSIZE := Nat.mod_eq_of_lt (by
      rw [Nat.add_mul] at hpend
      omega)
    have hshift : ∀ k, a + PGSIZE + k * PGSIZE = a + (k + 1) * PGSIZE := fun k => by ring
    have hdistinct : ∀ k ≤ n, ¬ (PDX (a + PGSIZE + k * PGSIZE) = PDX a ∧
        PTX (a + PGSIZE + k * PGSIZE) = PTX a) := by
      intro k hk
      apply page_ne
      · rw [hshift]
        have : (k + 1) * PGSIZE ≤ (n + 1) * PGSIZE := Nat.mul_le_mul_right _ (by omega)
        omega
      · have : 0 * PGSIZE ≤ (n + 1) * PGSIZE := Nat.zero_le _
        omega
      · rw [hshift]
        unfold PGSIZE at *
        omega
    have hroom₂ : holes m₂ d T ≤ m₂.freelist.length := by
      have := congrArg List.length hfl₁
      rw [List.length_append] at this
      omega
    obtain ⟨m', taken', hloop', hw', hfl', hholes', hpte', hframe', hpde', hpt', hbytes'⟩ :=
      ih (a + PGSIZE) (pa + PGSIZE) m₂ hw₂ (by rw [Nat.add_mod_right]; exact ha)
        (by rw [Nat.add_mul] at hend; omega) (by rw [Nat.add_mul] at hpend; omega)
        (fun k hk => by
          rw [hpte₂, if_neg (hdistinct k hk), hshift]
          exact hfree (k + 1) (by omega))
        (fun k hk => by rw [hshift]; exact hT (k + 1) (by omega)) hroom₂
    refine ⟨m', taken₁ ++ taken', by rw [hloop, hnext, hpnext]; exact hloop', hw',
      by rw [hfl₁, hfl', List.append_assoc], by rw [List.length_append]; omega,
      fun k hk => ?_, fun va hva => ?_, fun x hx => ?_, fun t htd htt htab i => ?_,
      fun b hb => ?_⟩
    · rcases k with _ | k
      · simp only [Nat.zero_mul, Nat.add_zero]
        have hnot : ∀ j ≤ n, ¬ (PDX a = PDX (a + PGSIZE + j * PGSIZE) ∧
            PTX a = PTX (a + PGSIZE + j * PGSIZE)) :=
          fun j hj h => hdistinct j hj ⟨h.1.symm, h.2.symm⟩
        rw [hframe' a hnot, hpte₂, if_pos ⟨rfl, rfl⟩]
      · have h := hpte' k (by omega)
        rw [hshift, show pa + PGSIZE + k * PGSIZE = pa + (k + 1) * PGSIZE by ring] at h
        exact h
    · rw [hframe' va (fun k hk => by rw [hshift]; exact hva (k + 1) (by omega)), hpte₂,
        if_neg (by simpa using hva 0 (Nat.zero_le _))]
    · rw [hpde' x (fun k hk => by rw [hshift]; exact hx (k + 1) (by omega)),
        hpde₂ x (by simpa using hx 0 (Nat.zero_le _))]
    · have htab' : ∀ x < 1024, Present (m₂.pt d x) → m₂.ptPage d x ≠ t := by
        intro x hx hpx
        by_cases hxa : x = PDX a
        · subst hxa
          rcases htab₂ with hmem | ⟨hp, heq⟩
          · exact fun h => htt (List.mem_append_left _ (h ▸ hmem))
          · rw [heq]
            exact htab _ hx hp
        · have hsame : m₂.ptPage d x = m.ptPage d x := by
            unfold Mem.ptPage
            rw [hpde₂ x hxa]
          rw [hsame]
          rw [hpde₂ x hxa] at hpx
          exact htab x hx hpx
      rw [hpt' t htd (fun h => htt (List.mem_append_right _ h)) htab' i,
        hpt₂ t htd (fun h => htt (List.mem_append_left _ h)) htab i]
    · rw [hbytes' b (fun v hv => hb v (List.mem_append_right _ hv)),
        hbytes₂ b (fun v hv => hb v (List.mem_append_left _ hv))]

theorem idx_of_page {u v : Nat} (h : u / PGSIZE = v / PGSIZE) : PDX u = PDX v ∧ PTX u = PTX v := by
  rw [PDX_eq, PDX_eq, PTX_eq, PTX_eq]
  unfold PGSIZE at h
  omega

theorem mappages_eq {m : Mem} {d va size pa perm : Nat} (hva : va % PGSIZE = 0)
    (hs : size % PGSIZE = 0) (hpos : 0 < size) (hend : va + size ≤ WORD) :
    mappages m d va size pa perm = mappagesLoop d perm (size / PGSIZE - 1) va pa m := by
  have h₁ : (va + size + WORD - 1) % WORD / PGSIZE * PGSIZE = va + size - PGSIZE := by
    unfold PGSIZE WORD at *
    omega
  have h₂ : (va + size - PGSIZE + WORD - va) % WORD / PGSIZE = size / PGSIZE - 1 := by
    clear h₁
    unfold PGSIZE WORD at *
    omega
  have h₃ : va / PGSIZE * PGSIZE = va := by
    clear h₁ h₂
    unfold PGSIZE at *
    omega
  unfold mappages PGROUNDDOWN
  simp only [h₁, h₂, h₃]

end Walk

end Xv6
