import Xv6.Vm.Uvm

set_option autoImplicit false

/-!
# Freeing user pages: `deallocuvm`

`DirWf` is what freeing needs of the user half of a page directory: page tables that are
distinct and are not the directory, and user pages that `kfree` takes and that are neither.
Under it `deallocuvm` does not panic and its loop ends; it clears exactly the present PTEs of
the pages from `PGROUNDUP(newvlimit)` below `oldvlimit`, and keeps the directory entries and
`DirWf`.
-/
namespace Xv6

namespace Mem

def page (m : Mem) (d va : Nat) : Nat := P2V (PTE_ADDR (m.pte d va))

end Mem

structure DirWf (L : Linker) (m : Mem) (d : Nat) : Prop where
  table_ne_dir : ∀ x < 1024, Present (m.pt d x) → m.ptPage d x ≠ d
  table_inj : ∀ x < 1024, ∀ y < 1024, Present (m.pt d x) → Present (m.pt d y) →
    m.ptPage d x = m.ptPage d y → x = y
  page_ne_dir : ∀ va < KERNBASE, Present (m.pte d va) → m.page d va ≠ d
  page_ne_table : ∀ va < KERNBASE, Present (m.pte d va) → ∀ x < 1024, Present (m.pt d x) →
    m.ptPage d x ≠ m.page d va
  page_freeable : ∀ va < KERNBASE, Present (m.pte d va) → Freeable L (m.page d va)

theorem PDX_lt_of_user {a : Nat} (h : a < KERNBASE) : PDX a < 512 := by
  rw [PDX_eq]
  unfold KERNBASE at h
  omega

theorem addr_ne_zero_of_freeable {L : Linker} {pa : Nat} (h : Freeable L (P2V pa)) : pa ≠ 0 := by
  rintro rfl
  have hk : P2V 0 = KERNBASE := by decide
  obtain ⟨-, hle, -⟩ := h
  have h₁ := L.kernlink_le_data
  have h₂ := L.data_le_end
  rw [hk] at hle
  unfold KERNLINK EXTMEM at h₁
  omega

namespace DirWf

variable {L : Linker} {m m' : Mem} {d : Nat}

theorem of_fewer (hw : DirWf L m d) (hpt : m'.pt d = m.pt d)
    (hpte : ∀ va < KERNBASE, Present (m'.pte d va) → m'.pte d va = m.pte d va) :
    DirWf L m' d := by
  have hpage : ∀ va < KERNBASE, Present (m'.pte d va) → m'.page d va = m.page d va := by
    intro va hva hp
    unfold Mem.page
    rw [hpte va hva hp]
  have hpres : ∀ va < KERNBASE, Present (m'.pte d va) → Present (m.pte d va) := by
    intro va hva hp
    rwa [← hpte va hva hp]
  constructor
  · intro x hx hp
    rw [hpt] at hp
    rw [Mem.ptPage_congr hpt]
    exact hw.table_ne_dir x hx hp
  · intro x hx y hy hpx hpy
    rw [hpt] at hpx hpy
    rw [Mem.ptPage_congr hpt, Mem.ptPage_congr hpt]
    exact hw.table_inj x hx y hy hpx hpy
  · intro va hva hp
    rw [hpage va hva hp]
    exact hw.page_ne_dir va hva (hpres va hva hp)
  · intro va hva hp x hx hpx
    rw [hpt] at hpx
    rw [hpage va hva hp, Mem.ptPage_congr hpt]
    exact hw.page_ne_table va hva (hpres va hva hp) x hx hpx
  · intro va hva hp
    rw [hpage va hva hp]
    exact hw.page_freeable va hva (hpres va hva hp)

theorem of_pt_eq (hw : DirWf L m d) (h : m'.pt = m.pt) : DirWf L m' d := by
  refine hw.of_fewer (by rw [h]) (fun va _ _ => ?_)
  rw [Mem.pte_eq, Mem.pte_eq, Mem.ptPage_congr (congrFun h d), h]

theorem pt_store_own {m₀ : Mem} (hw : DirWf L m₀ d) (hpt : m.pt d = m₀.pt d) {a : Nat}
    (hp : Present (m.pte d a)) (v : Nat) :
    (m.store (m.ptPage d (PDX a)) (PTX a) v).pt d = m.pt d := by
  have hpde : Present (m.pt d (PDX a)) := Mem.present_pde_of_pte hp
  have hd : m.ptPage d (PDX a) ≠ d := by
    rw [Mem.ptPage_congr hpt]
    exact hw.table_ne_dir _ (Mem.PDX_lt a) (by rwa [← hpt])
  funext y
  rw [Mem.store_pt, if_neg (fun h => hd h.1.symm)]

theorem pte_store_own {m₀ : Mem} (hw : DirWf L m₀ d) (hpt : m.pt d = m₀.pt d) {a : Nat}
    (hp : Present (m.pte d a)) (v va : Nat) :
    (m.store (m.ptPage d (PDX a)) (PTX a) v).pte d va =
      if PDX va = PDX a ∧ PTX va = PTX a then v else m.pte d va := by
  have hpde : Present (m.pt d (PDX a)) := Mem.present_pde_of_pte hp
  apply Mem.pte_store_table hpde
  · rw [Mem.ptPage_congr hpt]
    exact hw.table_ne_dir _ (Mem.PDX_lt a) (by rwa [← hpt])
  · intro y hy hpy hyx
    rw [Mem.ptPage_congr hpt, Mem.ptPage_congr hpt] at hyx
    rw [hpt] at hpy
    exact hw.table_inj y hy _ (Mem.PDX_lt a) hpy (by rwa [← hpt]) hyx

theorem pte_free_page (hw : DirWf L m d) {a : Nat} (hk : a < KERNBASE)
    (hp : Present (m.pte d a)) (va : Nat) :
    (({ m.fill (m.page d a) 1 with freelist := m.page d a :: m.freelist } : Mem).store
      (m.ptPage d (PDX a)) (PTX a) 0).pte d va =
      if PDX va = PDX a ∧ PTX va = PTX a then 0 else m.pte d va := by
  set v := m.page d a
  set m₀ : Mem := { m.fill v 1 with freelist := v :: m.freelist }
  have hvd : v ≠ d := hw.page_ne_dir a hk hp
  have hpt : m₀.pt d = m.pt d := by
    funext y
    change (m.fill v 1).pt d y = m.pt d y
    rw [Mem.fill_pt, if_neg (Ne.symm hvd)]
  have hpde : Present (m.pt d (PDX a)) := Mem.present_pde_of_pte hp
  have hfill : ∀ vb, m₀.pte d vb = m.pte d vb := by
    intro vb
    change ({ m.fill v 1 with freelist := v :: m.freelist } : Mem).pte d vb = m.pte d vb
    rw [Mem.pte_freelist]
    exact Mem.pte_fill 1 hvd vb (fun h => hw.page_ne_table a hk hp _ (Mem.PDX_lt vb) h)
  rw [← Mem.ptPage_congr hpt, Mem.pte_store_table, hfill]
  · rw [hpt]
    exact hpde
  · rw [Mem.ptPage_congr hpt]
    exact hw.table_ne_dir _ (Mem.PDX_lt a) hpde
  · intro y hy hpy hyx
    rw [hpt] at hpy
    rw [Mem.ptPage_congr hpt, Mem.ptPage_congr hpt] at hyx
    exact hw.table_inj y hy _ (Mem.PDX_lt a) hpy hpde hyx

end DirWf

theorem skip_dir_bounds {a : Nat} (hk : a < KERNBASE) (ha : a % PGSIZE = 0) :
    a ≤ (a / 2 ^ 22 + 1) * 2 ^ 22 - PGSIZE ∧ ((a / 2 ^ 22 + 1) * 2 ^ 22 - PGSIZE) % PGSIZE = 0 ∧
      (a / 2 ^ 22 + 1) * 2 ^ 22 - PGSIZE + PGSIZE ≤ KERNBASE ∧
      ∀ va, a < va → va ≤ (a / 2 ^ 22 + 1) * 2 ^ 22 - PGSIZE → PDX va = PDX a := by
  unfold PGSIZE KERNBASE at *
  refine ⟨by omega, by omega, by omega, fun va h₁ h₂ => ?_⟩
  rw [PDX_eq, PDX_eq]
  omega

section Body

variable {L : Linker} {m : Mem} {d a : Nat}

theorem deallocuvmBody_spec (hw : DirWf L m d) (ha : a % PGSIZE = 0) (hk : a < KERNBASE) :
    ∃ a₁ m₁, deallocuvmBody L d a m = .ok (a₁, m₁) ∧ a ≤ a₁ ∧ a₁ % PGSIZE = 0 ∧
      a₁ + PGSIZE ≤ KERNBASE ∧ DirWf L m₁ d ∧ m₁.pt d = m.pt d ∧
      (∀ va, a < va → va ≤ a₁ → ¬ Present (m.pte d va)) ∧
      ∀ va, m₁.pte d va =
        if PDX va = PDX a ∧ PTX va = PTX a ∧ Present (m.pte d va) then 0 else m.pte d va := by
  have hnext : a + PGSIZE ≤ KERNBASE := by
    unfold PGSIZE KERNBASE at *
    omega
  have hnone : ∀ va, a < va → va ≤ a → ¬ Present (m.pte d va) := fun va h₁ h₂ => by omega
  unfold deallocuvmBody
  rw [walkpgdir_false]
  by_cases hpde : Present (m.pt d (PDX a))
  · rw [if_pos hpde]
    dsimp only
    have hpte : m.pte d a = m.pt (m.ptPage d (PDX a)) (PTX a) := by
      rw [Mem.pte_eq, if_pos hpde]
    by_cases hp : m.pt (m.ptPage d (PDX a)) (PTX a) &&& PTE_P ≠ 0
    · have hpa : Present (m.pte d a) := by
        rw [hpte]
        exact hp
      have hfree : Freeable L (m.page d a) := hw.page_freeable a hk hpa
      have hpa0 : PTE_ADDR (m.pt (m.ptPage d (PDX a)) (PTX a)) ≠ 0 := by
        rw [← hpte]
        exact addr_ne_zero_of_freeable hfree
      have hpage : P2V (PTE_ADDR (m.pt (m.ptPage d (PDX a)) (PTX a))) = m.page d a := by
        rw [Mem.page, hpte]
      have hclear := hw.pte_free_page hk hpa
      rw [if_pos hp, if_neg hpa0, hpage, kfree_freeable _ hfree]
      refine ⟨a, _, rfl, le_rfl, ha, hnext, ?_, ?_, hnone, ?_⟩
      · refine hw.of_fewer ?_ ?_
        · funext y
          rw [Mem.store_pt, if_neg (fun h => hw.table_ne_dir _ (Mem.PDX_lt a) hpde h.1.symm)]
          change (m.fill (m.page d a) 1).pt d y = m.pt d y
          rw [Mem.fill_pt, if_neg (Ne.symm (hw.page_ne_dir a hk hpa))]
        · intro va _ hpv
          rw [hclear] at hpv ⊢
          by_cases hs : PDX va = PDX a ∧ PTX va = PTX a
          · rw [if_pos hs] at hpv
            exact absurd hpv not_present_zero
          · rw [if_neg hs]
      · funext y
        rw [Mem.store_pt, if_neg (fun h => hw.table_ne_dir _ (Mem.PDX_lt a) hpde h.1.symm)]
        change (m.fill (m.page d a) 1).pt d y = m.pt d y
        rw [Mem.fill_pt, if_neg (Ne.symm (hw.page_ne_dir a hk hpa))]
      · intro va
        rw [hclear]
        by_cases hs : PDX va = PDX a ∧ PTX va = PTX a
        · have hpv : Present (m.pte d va) := by
            rw [Mem.pte_congr_idx hs.1 hs.2]
            exact hpa
          rw [if_pos hs, if_pos ⟨hs.1, hs.2, hpv⟩]
        · rw [if_neg hs, if_neg (fun h => hs ⟨h.1, h.2.1⟩)]
    · rw [if_neg hp]
      refine ⟨a, m, rfl, le_rfl, ha, hnext, hw, rfl, hnone, ?_⟩
      intro va
      by_cases hs : PDX va = PDX a ∧ PTX va = PTX a
      · have hnp : ¬ Present (m.pte d va) := by
          rw [Mem.pte_eq, hs.1, hs.2, if_pos hpde]
          exact hp
        rw [if_neg (fun h => hnp h.2.2)]
      · rw [if_neg (fun h => hs ⟨h.1, h.2.1⟩)]
  · rw [if_neg hpde]
    dsimp only
    have ha₁ : (PGADDR (PDX a + 1) 0 0 + WORD - PGSIZE) % WORD =
        (a / 2 ^ 22 + 1) * 2 ^ 22 - PGSIZE := by
      have hq : PDX a = a / 2 ^ 22 := by
        rw [PDX_eq]
        unfold KERNBASE at hk
        omega
      rw [PGADDR_dir (by have := PDX_lt_of_user hk; omega), hq]
      unfold KERNBASE at hk
      unfold WORD PGSIZE
      omega
    rw [ha₁]
    have hsame : ∀ va, PDX va = PDX a → ¬ Present (m.pte d va) := by
      intro va hva
      rw [Mem.pte_eq, hva, if_neg hpde]
      exact not_present_zero
    obtain ⟨hle, hal, hlt, hdir⟩ := skip_dir_bounds hk ha
    refine ⟨_, m, rfl, hle, hal, hlt, hw, rfl, fun va h₁ h₂ => hsame va (hdir va h₁ h₂), ?_⟩
    intro va
    rw [if_neg (fun h => hsame va h.1 h.2.2)]

end Body

section Loop

variable {L : Linker} {d oldvlimit : Nat}

theorem deallocuvmLoop_spec (hold : oldvlimit ≤ KERNBASE) (fuel : Nat) :
    ∀ (a : Nat) (m : Mem), DirWf L m d → a % PGSIZE = 0 → oldvlimit ≤ a + fuel * PGSIZE →
      ∃ m', deallocuvmLoop L d oldvlimit fuel a m = .ok m' ∧ DirWf L m' d ∧ m'.pt d = m.pt d ∧
        ∀ va, va % PGSIZE = 0 → va < WORD →
          m'.pte d va = if a ≤ va ∧ va < oldvlimit ∧ Present (m.pte d va) then 0 else m.pte d va := by
  induction fuel with
  | zero =>
    intro a m hw _ hf
    unfold deallocuvmLoop
    rw [if_neg (by omega)]
    refine ⟨m, rfl, hw, rfl, fun va _ _ => ?_⟩
    rw [if_neg (by omega)]
  | succ k ih =>
    intro a m hw ha hf
    have hP4 : PGSIZE = 4096 := rfl
    have hK : KERNBASE = 2147483648 := rfl
    have hW : WORD = 4294967296 := rfl
    unfold deallocuvmLoop
    by_cases hlt : a < oldvlimit
    · rw [if_pos hlt]
      obtain ⟨a₁, m₁, hb, haa, ha₁, ha₁k, hw₁, hpt₁, hskip, hpte₁⟩ :=
        deallocuvmBody_spec hw ha (by omega)
      have hwrap : (a₁ + PGSIZE) % WORD = a₁ + PGSIZE := by
        apply Nat.mod_eq_of_lt
        unfold KERNBASE at ha₁k
        unfold WORD
        omega
      have hf' : oldvlimit ≤ a₁ + PGSIZE + k * PGSIZE := by
        unfold PGSIZE at *
        rw [Nat.succ_mul] at hf
        omega
      obtain ⟨m', hrun, hw', hpt', hpte'⟩ :=
        ih (a₁ + PGSIZE) m₁ hw₁ (by unfold PGSIZE at *; omega) hf'
      dsimp only
      rw [hb]
      dsimp only
      rw [hwrap, hrun]
      refine ⟨m', rfl, hw', hpt'.trans hpt₁, fun va hva hvw => ?_⟩
      have hother : va ≠ a → m₁.pte d va = m.pte d va := by
        intro hne
        rw [hpte₁]
        exact if_neg (fun h => hne (eq_of_PDX_PTX hva ha hvw (by omega) h.1 h.2.1))
      rw [hpte' va hva hvw]
      rcases Nat.lt_trichotomy va a with hlo | rfl | hhi
      · have h₁ : ¬ (a₁ + PGSIZE ≤ va ∧ va < oldvlimit ∧ Present (m₁.pte d va)) :=
          fun h => absurd h.1 (by omega)
        have h₂ : ¬ (a ≤ va ∧ va < oldvlimit ∧ Present (m.pte d va)) :=
          fun h => absurd h.1 (by omega)
        rw [if_neg h₁, if_neg h₂, hother (by omega)]
      · have h₁ : ¬ (a₁ + PGSIZE ≤ va ∧ va < oldvlimit ∧ Present (m₁.pte d va)) :=
          fun h => absurd h.1 (by omega)
        rw [if_neg h₁, hpte₁]
        by_cases hP : Present (m.pte d va)
        · rw [if_pos ⟨rfl, rfl, hP⟩, if_pos ⟨le_rfl, hlt, hP⟩]
        · rw [if_neg (fun h => hP h.2.2), if_neg (fun h => hP h.2.2)]
      · rw [hother (by omega)]
        by_cases hmid : va ≤ a₁
        · have h₁ : ¬ (a₁ + PGSIZE ≤ va ∧ va < oldvlimit ∧ Present (m.pte d va)) :=
            fun h => absurd h.1 (by omega)
          rw [if_neg h₁, if_neg (fun h => hskip va hhi hmid h.2.2)]
        · have hge : a₁ + PGSIZE ≤ va := by
            rw [hP4] at ha₁ hva ⊢
            omega
          by_cases hc : va < oldvlimit ∧ Present (m.pte d va)
          · rw [if_pos ⟨hge, hc⟩, if_pos ⟨hhi.le, hc⟩]
          · rw [if_neg (fun h => hc h.2), if_neg (fun h => hc h.2)]
    · rw [if_neg hlt]
      refine ⟨m, rfl, hw, rfl, fun va _ _ => ?_⟩
      rw [if_neg (by omega)]

end Loop

/-! ## The pages `deallocuvm` frees -/

def pageAddrs (lo hi : Nat) : List Nat :=
  (List.range ((hi - lo + PGSIZE - 1) / PGSIZE)).map fun i => lo + i * PGSIZE

def freedPages (m : Mem) (d lo hi : Nat) : List Nat :=
  ((pageAddrs lo hi).filter fun va => decide (Present (m.pte d va))).map (m.page d)

theorem pageAddrs_of_le {lo hi : Nat} (h : hi ≤ lo) : pageAddrs lo hi = [] := by
  have hn : (hi - lo + PGSIZE - 1) / PGSIZE = 0 := by
    unfold PGSIZE
    omega
  unfold pageAddrs
  rw [hn, List.range_zero, List.map_nil]

theorem pageAddrs_of_lt {lo hi : Nat} (h : lo < hi) :
    pageAddrs lo hi = lo :: pageAddrs (lo + PGSIZE) hi := by
  have hn : (hi - lo + PGSIZE - 1) / PGSIZE = (hi - (lo + PGSIZE) + PGSIZE - 1) / PGSIZE + 1 := by
    unfold PGSIZE
    omega
  unfold pageAddrs
  rw [hn, List.range_succ_eq_map, List.map_cons, List.map_map, Nat.zero_mul, Nat.add_zero]
  congr 1
  apply List.map_congr_left
  intro i _
  show lo + (i + 1) * PGSIZE = lo + PGSIZE + i * PGSIZE
  rw [Nat.add_mul, Nat.one_mul]
  omega

theorem mem_pageAddrs {lo hi va : Nat} (h : va ∈ pageAddrs lo hi) :
    ∃ i, va = lo + i * PGSIZE ∧ va < hi := by
  unfold pageAddrs at h
  obtain ⟨i, hi', rfl⟩ := List.mem_map.mp h
  refine ⟨i, rfl, ?_⟩
  have hq := Nat.div_mul_le_self (hi - lo + PGSIZE - 1) PGSIZE
  have hle := Nat.mul_le_mul_right PGSIZE (List.mem_range.mp hi')
  rw [Nat.succ_mul] at hle
  unfold PGSIZE at hq hle ⊢
  omega

section Freed

variable {m : Mem} {d : Nat}

theorem freedPages_of_le {lo hi : Nat} (h : hi ≤ lo) : freedPages m d lo hi = [] := by
  unfold freedPages
  rw [pageAddrs_of_le h]
  rfl

theorem freedPages_of_lt {lo hi : Nat} (h : lo < hi) :
    freedPages m d lo hi =
      (if Present (m.pte d lo) then [m.page d lo] else []) ++ freedPages m d (lo + PGSIZE) hi := by
  unfold freedPages
  rw [pageAddrs_of_lt h]
  -- the filter's test is rewritten by its own lemmas: letting `simp` decide `Present` sends the
  -- kernel into `Nat.land`
  by_cases hp : Present (m.pte d lo)
  · rw [List.filter_cons_of_pos (p := fun va => decide (Present (m.pte d va))) (decide_eq_true hp),
      List.map_cons, if_pos hp, List.singleton_append]
  · rw [List.filter_cons_of_neg (p := fun va => decide (Present (m.pte d va))) (by
      rw [decide_eq_true_iff]; exact hp), if_neg hp, List.nil_append]

theorem freedPages_skip (k : Nat) :
    ∀ {lo hi : Nat}, (∀ i < k, ¬ Present (m.pte d (lo + i * PGSIZE))) →
      freedPages m d lo hi = freedPages m d (lo + k * PGSIZE) hi := by
  induction k with
  | zero => intro lo hi _; rw [Nat.zero_mul, Nat.add_zero]
  | succ k ih =>
    intro lo hi h
    by_cases hlt : lo < hi
    · have h0 := h 0 (Nat.zero_lt_succ k)
      rw [Nat.zero_mul, Nat.add_zero] at h0
      rw [freedPages_of_lt hlt, if_neg h0, List.nil_append,
        ih fun i hi' => by
          have := h (i + 1) (by omega)
          rwa [Nat.add_mul, Nat.one_mul, ← Nat.add_assoc, Nat.add_right_comm] at this]
      rw [Nat.add_mul, Nat.one_mul, Nat.add_assoc, Nat.add_comm PGSIZE]
    · rw [freedPages_of_le (by omega), freedPages_of_le (by unfold PGSIZE at *; omega)]

theorem freedPages_congr {m' : Mem} {lo hi : Nat}
    (h : ∀ i, lo + i * PGSIZE < hi → m'.pte d (lo + i * PGSIZE) = m.pte d (lo + i * PGSIZE)) :
    freedPages m' d lo hi = freedPages m d lo hi := by
  have hva : ∀ va ∈ pageAddrs lo hi, m'.pte d va = m.pte d va := by
    intro va hmem
    obtain ⟨i, rfl, hlt⟩ := mem_pageAddrs hmem
    exact h i hlt
  unfold freedPages
  rw [List.filter_congr fun va hmem => by rw [hva va hmem]]
  apply List.map_congr_left
  intro va hmem
  unfold Mem.page
  rw [hva va (List.mem_filter.mp hmem).1]

end Freed

section Frees

variable {L : Linker} {m : Mem} {d a : Nat}

theorem deallocuvmBody_result (hw : DirWf L m d) (hk : a < KERNBASE) {a₁ : Nat} {m₁ : Mem}
    (hb : deallocuvmBody L d a m = .ok (a₁, m₁)) :
    m₁ = if Present (m.pte d a) then
      ({ m.fill (m.page d a) 1 with freelist := m.page d a :: m.freelist } : Mem).store
        (m.ptPage d (PDX a)) (PTX a) 0
    else m := by
  unfold deallocuvmBody at hb
  rw [walkpgdir_false] at hb
  by_cases hpde : Present (m.pt d (PDX a))
  · rw [if_pos hpde] at hb
    dsimp only at hb
    have hpte : m.pte d a = m.pt (m.ptPage d (PDX a)) (PTX a) := by
      rw [Mem.pte_eq, if_pos hpde]
    by_cases hp : m.pt (m.ptPage d (PDX a)) (PTX a) &&& PTE_P ≠ 0
    · have hpa : Present (m.pte d a) := by
        rw [hpte]
        exact hp
      have hfree : Freeable L (m.page d a) := hw.page_freeable a hk hpa
      have hpa0 : PTE_ADDR (m.pt (m.ptPage d (PDX a)) (PTX a)) ≠ 0 := by
        rw [← hpte]
        exact addr_ne_zero_of_freeable hfree
      have hpage : P2V (PTE_ADDR (m.pt (m.ptPage d (PDX a)) (PTX a))) = m.page d a := by
        rw [Mem.page, hpte]
      rw [if_pos hp, if_neg hpa0, hpage, kfree_freeable _ hfree] at hb
      rw [if_pos hpa]
      exact (Prod.mk.inj (Except.ok.inj hb)).2.symm
    · have hnp : ¬ Present (m.pte d a) := by
        rw [hpte]
        exact hp
      rw [if_neg hp] at hb
      rw [if_neg hnp]
      exact (Prod.mk.inj (Except.ok.inj hb)).2.symm
  · have hnp : ¬ Present (m.pte d a) := by
      rw [Mem.pte_eq, if_neg hpde]
      exact not_present_zero
    rw [if_neg hpde] at hb
    rw [if_neg hnp]
    exact (Prod.mk.inj (Except.ok.inj hb)).2.symm

theorem deallocuvmBody_frame (hw : DirWf L m d) (hk : a < KERNBASE) {a₁ : Nat} {m₁ : Mem}
    (hb : deallocuvmBody L d a m = .ok (a₁, m₁)) :
    m₁.freelist = (if Present (m.pte d a) then [m.page d a] else []) ++ m.freelist ∧
      (∀ x, (Present (m.pte d a) → ¬ (m.page d a ≤ x ∧ x < m.page d a + PGSIZE)) →
        m₁.bytes x = m.bytes x) ∧
      ∀ t i, (Present (m.pte d a) → t ≠ m.page d a ∧ ¬ (t = m.ptPage d (PDX a) ∧ i = PTX a)) →
        m₁.pt t i = m.pt t i := by
  have hm₁ := deallocuvmBody_result hw hk hb
  subst hm₁
  by_cases hp : Present (m.pte d a)
  · simp only [if_pos hp]
    refine ⟨rfl, fun x hx => ?_, fun t i ht => ?_⟩
    · dsimp only [Mem.store, Mem.fill]
      exact if_neg (hx hp)
    · obtain ⟨htv, hts⟩ := ht hp
      rw [Mem.store_pt, if_neg hts]
      dsimp only
      rw [Mem.fill_pt, if_neg htv]
  · simp only [if_neg hp, List.nil_append, implies_true, and_self]

end Frees

section LoopFrees

variable {L : Linker} {d oldvlimit : Nat}

theorem deallocuvmLoop_frees (hold : oldvlimit ≤ KERNBASE) (fuel : Nat) :
    ∀ (a : Nat) (m : Mem), DirWf L m d → a % PGSIZE = 0 → ∀ m',
      deallocuvmLoop L d oldvlimit fuel a m = .ok m' →
      m'.freelist = (freedPages m d a oldvlimit).reverse ++ m.freelist ∧
      (∀ x, (∀ v ∈ freedPages m d a oldvlimit, ¬ (v ≤ x ∧ x < v + PGSIZE)) →
        m'.bytes x = m.bytes x) ∧
      ∀ t i, t ∉ freedPages m d a oldvlimit →
        (∀ j, a + j * PGSIZE < oldvlimit → Present (m.pte d (a + j * PGSIZE)) →
          ¬ (t = m.ptPage d (PDX (a + j * PGSIZE)) ∧ i = PTX (a + j * PGSIZE))) →
        m'.pt t i = m.pt t i := by
  induction fuel with
  | zero =>
    intro a m _ _ m' hrun
    unfold deallocuvmLoop at hrun
    by_cases hlt : a < oldvlimit
    · rw [if_pos hlt] at hrun
      cases hrun
    · rw [if_neg hlt] at hrun
      cases hrun
      rw [freedPages_of_le (by omega)]
      exact ⟨rfl, fun _ _ => rfl, fun _ _ _ _ => rfl⟩
  | succ k ih =>
    intro a m hw ha m' hrun
    unfold deallocuvmLoop at hrun
    by_cases hlt : a < oldvlimit
    · rw [if_pos hlt] at hrun
      have hk : a < KERNBASE := by omega
      obtain ⟨a₁, m₁, hb, haa, ha₁, ha₁k, hw₁, hpt₁, hskip, hpte₁⟩ := deallocuvmBody_spec hw ha hk
      obtain ⟨hfl₁, hbytes₁, hpt₁'⟩ := deallocuvmBody_frame hw hk hb
      have hwrap : (a₁ + PGSIZE) % WORD = a₁ + PGSIZE := by
        apply Nat.mod_eq_of_lt
        unfold KERNBASE at ha₁k
        unfold WORD
        omega
      dsimp only at hrun
      rw [hb] at hrun
      dsimp only at hrun
      rw [hwrap] at hrun
      obtain ⟨hfl', hbytes', hpt'⟩ := ih (a₁ + PGSIZE) m₁ hw₁ (by unfold PGSIZE at *; omega) m' hrun
      obtain ⟨n, rfl⟩ : ∃ n, a₁ = a + n * PGSIZE :=
        ⟨(a₁ - a) / PGSIZE, by unfold PGSIZE at *; omega⟩
      have hP : PGSIZE = 4096 := rfl
      have ha4 : a % 4096 = 0 := ha
      have hold4 : oldvlimit ≤ 2147483648 := hold
      have hsame : ∀ j, 0 < j → a + j * PGSIZE < oldvlimit →
          m₁.pte d (a + j * PGSIZE) = m.pte d (a + j * PGSIZE) := by
        intro j hj hjlt
        rw [hP] at hjlt ⊢
        rw [hpte₁]
        refine if_neg fun h => ?_
        have heq := eq_of_PDX_PTX (a := a + j * 4096) (b := a)
          (by show (a + j * 4096) % 4096 = 0; omega) ha
          (by show a + j * 4096 < 4294967296; omega) (by show a < 4294967296; omega) h.1 h.2.1
        omega
      have hskip' : ∀ i < n, ¬ Present (m.pte d (a + PGSIZE + i * PGSIZE)) := by
        intro i hi
        have hle : (i + 1) * 4096 ≤ n * 4096 := Nat.mul_le_mul_right 4096 hi
        refine hskip _ ?_ ?_
        · rw [hP]
          omega
        · rw [hP]
          rw [Nat.add_mul, Nat.one_mul] at hle
          omega
      have hfreed : freedPages m d a oldvlimit =
          (if Present (m.pte d a) then [m.page d a] else []) ++
            freedPages m₁ d (a + n * PGSIZE + PGSIZE) oldvlimit := by
        have hcongr : ∀ i, a + n * PGSIZE + PGSIZE + i * PGSIZE < oldvlimit →
            m₁.pte d (a + n * PGSIZE + PGSIZE + i * PGSIZE) =
              m.pte d (a + n * PGSIZE + PGSIZE + i * PGSIZE) := by
          intro i hi
          have hidx : a + n * PGSIZE + PGSIZE + i * PGSIZE = a + (n + 1 + i) * PGSIZE := by
            rw [hP]
            omega
          rw [hidx] at hi ⊢
          exact hsame _ (by omega) hi
        rw [freedPages_of_lt hlt, freedPages_skip n hskip', Nat.add_right_comm a PGSIZE,
          freedPages_congr hcongr]
      rw [hfreed]
      refine ⟨?_, fun x hx => ?_, fun t i ht hslot => ?_⟩
      · rw [hfl', hfl₁, List.reverse_append]
        split <;> simp
      · have hmem : Present (m.pte d a) →
            m.page d a ∈ (if Present (m.pte d a) then [m.page d a] else []) := fun hpa => by
          rw [if_pos hpa]
          exact List.mem_singleton.mpr rfl
        rw [hbytes' x fun v hv => hx v (List.mem_append_right _ hv)]
        exact hbytes₁ x fun hpa => hx _ (List.mem_append_left _ (hmem hpa))
      · have hslot' : ∀ j, a + n * PGSIZE + PGSIZE + j * PGSIZE < oldvlimit →
            Present (m₁.pte d (a + n * PGSIZE + PGSIZE + j * PGSIZE)) →
            ¬ (t = m₁.ptPage d (PDX (a + n * PGSIZE + PGSIZE + j * PGSIZE)) ∧
              i = PTX (a + n * PGSIZE + PGSIZE + j * PGSIZE)) := by
          intro j hj hp
          have hidx : a + n * PGSIZE + PGSIZE + j * PGSIZE = a + (n + 1 + j) * PGSIZE := by
            rw [hP]
            omega
          rw [hidx] at hj hp ⊢
          rw [hsame _ (by omega) hj] at hp
          rw [Mem.ptPage_congr hpt₁]
          exact hslot _ hj hp
        rw [hpt' t i (fun hm => ht (List.mem_append_right _ hm)) hslot']
        refine hpt₁' t i fun hpa => ⟨fun htv => ht (List.mem_append_left _ ?_), ?_⟩
        · rw [if_pos hpa, htv]
          exact List.mem_singleton.mpr rfl
        · have := hslot 0 (by rw [Nat.zero_mul, Nat.add_zero]; exact hlt)
          rw [Nat.zero_mul, Nat.add_zero] at this
          exact this hpa
    · rw [if_neg hlt] at hrun
      cases hrun
      rw [freedPages_of_le (by omega)]
      exact ⟨rfl, fun _ _ => rfl, fun _ _ _ _ => rfl⟩

end LoopFrees

theorem deallocuvm_spec {L : Linker} {m : Mem} {d oldvlimit newvlimit : Nat} (hw : DirWf L m d)
    (hnew : newvlimit < oldvlimit) (hold : oldvlimit ≤ KERNBASE) :
    ∃ m', deallocuvm L m d oldvlimit newvlimit = .ok (newvlimit, m') ∧ DirWf L m' d ∧
      m'.pt d = m.pt d ∧ ∀ va, va % PGSIZE = 0 → va < WORD →
        m'.pte d va =
          if PGROUNDUP newvlimit ≤ va ∧ va < oldvlimit ∧ Present (m.pte d va) then 0
          else m.pte d va := by
  have hal : PGROUNDUP newvlimit % PGSIZE = 0 := Nat.mul_mod_left _ _
  have hfuel : oldvlimit ≤ PGROUNDUP newvlimit + LOOPFUEL * PGSIZE := by
    have hc : LOOPFUEL * PGSIZE = 2 ^ 32 + 4096 := by decide
    unfold KERNBASE at hold
    omega
  obtain ⟨m', hrun, hw', hpt', hpte'⟩ := deallocuvmLoop_spec hold LOOPFUEL _ m hw hal hfuel
  unfold deallocuvm
  rw [if_neg (by omega), hrun]
  exact ⟨m', rfl, hw', hpt', hpte'⟩

/-- `deallocuvm` on a well-formed directory, to a smaller limit: it returns `newvlimit`; it
keeps the directory entries and `DirWf`, and clears the present PTEs of exactly the pages from
`PGROUNDUP(newvlimit)` below `oldvlimit`; it `kfree`s exactly their pages, in address order, and
no byte outside those pages and no page-table word other than those PTEs changes. -/
theorem deallocuvm_frees_exactly {L : Linker} {m : Mem} {d oldvlimit newvlimit : Nat}
    (hw : DirWf L m d) (hnew : newvlimit < oldvlimit) (hold : oldvlimit ≤ KERNBASE) :
    ∃ m', deallocuvm L m d oldvlimit newvlimit = .ok (newvlimit, m') ∧ DirWf L m' d ∧
      m'.pt d = m.pt d ∧
      (∀ va, va % PGSIZE = 0 → va < WORD →
        m'.pte d va = if PGROUNDUP newvlimit ≤ va ∧ va < oldvlimit ∧ Present (m.pte d va) then 0
          else m.pte d va) ∧
      m'.freelist = (freedPages m d (PGROUNDUP newvlimit) oldvlimit).reverse ++ m.freelist ∧
      (∀ x, (∀ v ∈ freedPages m d (PGROUNDUP newvlimit) oldvlimit, ¬ (v ≤ x ∧ x < v + PGSIZE)) →
        m'.bytes x = m.bytes x) ∧
      ∀ t i, t ∉ freedPages m d (PGROUNDUP newvlimit) oldvlimit →
        (∀ va, va % PGSIZE = 0 → PGROUNDUP newvlimit ≤ va → va < oldvlimit →
          Present (m.pte d va) → ¬ (t = m.ptPage d (PDX va) ∧ i = PTX va)) →
        m'.pt t i = m.pt t i := by
  have hal : PGROUNDUP newvlimit % PGSIZE = 0 := Nat.mul_mod_left _ _
  have hfuel : oldvlimit ≤ PGROUNDUP newvlimit + LOOPFUEL * PGSIZE := by
    have hc : LOOPFUEL * PGSIZE = 2 ^ 32 + 4096 := by decide
    unfold KERNBASE at hold
    omega
  obtain ⟨m', hrun, hw', hpt', hpte'⟩ := deallocuvmLoop_spec hold LOOPFUEL _ m hw hal hfuel
  obtain ⟨hfl, hbytes, hpt⟩ := deallocuvmLoop_frees hold LOOPFUEL _ m hw hal m' hrun
  have hrun' : deallocuvm L m d oldvlimit newvlimit = .ok (newvlimit, m') := by
    unfold deallocuvm
    rw [if_neg (by omega), hrun]
    rfl
  refine ⟨m', hrun', hw', hpt', hpte', hfl, hbytes, fun t i ht hslot => hpt t i ht ?_⟩
  intro j hj hp
  refine hslot _ ?_ (Nat.le_add_right _ _) hj hp
  unfold PGSIZE at hal ⊢
  omega

def initLinker : Linker := ⟨0x80200000, 0x80300000, by decide, by decide, by decide, by decide⟩

def initMem : Mem where
  freelist := []
  pt t i := if t = 0x80400000 ∧ i = 0 then 0x401007
    else if t = 0x80401000 ∧ i = 1 then 0x402007 else 0
  bytes _ := 0

theorem initMem_pde (x : Nat) : initMem.pt 0x80400000 x = if x = 0 then 0x401007 else 0 := by
  by_cases hx : x = 0 <;> simp [initMem, hx]

theorem initMem_pte (va : Nat) :
    initMem.pte 0x80400000 va = if PDX va = 0 ∧ PTX va = 1 then 0x402007 else 0 := by
  rw [Mem.pte_eq, initMem_pde]
  by_cases hd : PDX va = 0
  · have hpage : initMem.ptPage 0x80400000 (PDX va) = 0x80401000 := by
      rw [Mem.ptPage, initMem_pde, if_pos hd]
      decide
    rw [if_pos hd, if_pos (by decide), hpage]
    by_cases ht : PTX va = 1 <;> simp [initMem, hd, ht]
  · rw [if_neg hd, if_neg not_present_zero, if_neg (fun h => hd h.1)]

theorem initMem_present (va : Nat) :
    Present (initMem.pte 0x80400000 va) ↔ PDX va = 0 ∧ PTX va = 1 := by
  rw [initMem_pte]
  by_cases h : PDX va = 0 ∧ PTX va = 1
  · simp only [h, and_self, if_true, iff_true]
    decide
  · simp only [h, if_false, iff_false]
    exact not_present_zero

theorem initDirWf : DirWf initLinker initMem 0x80400000 := by
  have htable : ∀ x, Present (initMem.pt 0x80400000 x) → x = 0 := by
    intro x hx
    rw [initMem_pde] at hx
    by_contra h
    rw [if_neg h] at hx
    exact not_present_zero hx
  have hpage : ∀ va, Present (initMem.pte 0x80400000 va) →
      initMem.page 0x80400000 va = 0x80402000 := by
    intro va hp
    rw [Mem.page, initMem_pte, if_pos ((initMem_present va).1 hp)]
    decide
  have hpt0 : initMem.ptPage 0x80400000 0 = 0x80401000 := by decide
  constructor
  · intro x _ hx
    rw [htable x hx, hpt0]
    decide
  · intro x _ y _ hx hy _
    rw [htable x hx, htable y hy]
  · intro va _ hp
    rw [hpage va hp]
    decide
  · intro va _ hp x _ hx
    rw [hpage va hp, htable x hx, hpt0]
    decide
  · intro va _ hp
    rw [hpage va hp]
    exact ⟨by decide, by decide, by decide⟩

theorem deallocuvm_frees_exactly_init :
    DirWf initLinker initMem 0x80400000 ∧ 0x1000 < 0x2000 ∧ 0x2000 ≤ KERNBASE ∧
      ∃ m', deallocuvm initLinker initMem 0x80400000 0x2000 0x1000 = .ok (0x1000, m') ∧
        m'.freelist = [0x80402000] ∧ m'.pte 0x80400000 0x1000 = 0 := by
  obtain ⟨m', hrun, -, -, hpte, hfl, -⟩ := deallocuvm_frees_exactly initDirWf
    (show (0x1000 : Nat) < 0x2000 by decide) (show (0x2000 : Nat) ≤ KERNBASE by decide)
  have hpresent : Present (initMem.pte 0x80400000 0x1000) := (initMem_present _).2 ⟨rfl, rfl⟩
  have hfreed : freedPages initMem 0x80400000 (PGROUNDUP 0x1000) 0x2000 = [0x80402000] := by
    unfold freedPages
    rw [show pageAddrs (PGROUNDUP 0x1000) 0x2000 = [0x1000] by decide,
      List.filter_singleton, decide_eq_true hpresent, cond_true, List.map_singleton, Mem.page,
      initMem_pte, if_pos ⟨rfl, rfl⟩]
    decide
  refine ⟨initDirWf, by decide, by decide, m', hrun, ?_, ?_⟩
  · rw [hfl, hfreed]
    rfl
  · rw [hpte 0x1000 (by decide) (by decide), if_pos ⟨by decide, by decide, hpresent⟩]

/-- A directory whose one present PTE, for `0x1000`, maps physical page `0`: `deallocuvm`
panics with `"kfree"` instead of returning. -/
theorem deallocuvm_null_pte_panics :
    ∃ (L : Linker) (m : Mem) (d oldvlimit newvlimit : Nat), oldvlimit ≤ KERNBASE ∧
      newvlimit < oldvlimit ∧ deallocuvm L m d oldvlimit newvlimit = .error "kfree" :=
  ⟨⟨0x80200000, 0x80300000, by decide, by decide, by decide, by decide⟩,
    ⟨[], fun t i => if t = 0x80400000 ∧ i = 0 then 0x401007
      else if t = 0x80401000 ∧ i = 1 then 0x7 else 0, fun _ => 0⟩,
    0x80400000, 0x2000, 0x1000, by decide, by decide, rfl⟩

end Xv6
