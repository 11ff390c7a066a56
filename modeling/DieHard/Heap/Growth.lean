import DieHard.Heap.Search

/-!
# Growth of a heap

Activating the next miniheap of a size class maps fresh blocks, and in the DieHarder variant enters
their pages into the page table. Placement survives, and no bit of any slot changes.
-/

namespace DieHard

open Blocks

variable {cfg : HeapConfig}

def HeapConfig.sourceLayout (cfg : HeapConfig) (id : MiniId) (source : Nat → Addr) : Layout :=
  cfg.layout id ⟨false, 0, BitMap.empty, source 0, source⟩

/-- The source of memory answers with aligned blocks that are disjoint from each other and from all
ranges it has handed out before. -/
def Env.Fresh (cfg : HeapConfig) (id : MiniId) (source : Nat → Addr) (env : Env) : Prop :=
  (∀ j < (cfg.sourceLayout id source).count, (cfg.sourceLayout id source).base j ≠ 0 ∧
    cfg.pageSize ∣ (cfg.sourceLayout id source).base j ∧
    ∀ r ∈ env.mapped, Apart ((cfg.sourceLayout id source).base j)
      (cfg.sourceLayout id source).bytes r.1 r.2) ∧
  ∀ j < (cfg.sourceLayout id source).count, ∀ k < (cfg.sourceLayout id source).count, j ≠ k →
    Apart ((cfg.sourceLayout id source).base j) (cfg.sourceLayout id source).bytes
      ((cfg.sourceLayout id source).base k) (cfg.sourceLayout id source).bytes

instance (cfg : HeapConfig) (id : MiniId) (source : Nat → Addr) (env : Env) :
    Decidable (env.Fresh cfg id source) :=
  inferInstanceAs (Decidable (_ ∧ _))

/-- What activation does to a miniheap and to the shared state. -/
structure Activation (cfg : HeapConfig) (id : MiniId) (source : Nat → Addr) (env : Env)
    (m' : MiniHeap) (env' : Env) : Prop where
  activated : m'.isHeapActivated = true
  clear : ∀ i, m'.miniHeapBitmap.isSet i = false
  base : ∀ j < (cfg.sourceLayout id source).count,
    (cfg.layout id m').base j = (cfg.sourceLayout id source).base j
  mapped : ∀ r, r ∈ env'.mapped ↔ (∃ j < (cfg.sourceLayout id source).count,
    r = ((cfg.sourceLayout id source).base j, (cfg.sourceLayout id source).bytes)) ∨ r ∈ env.mapped
  entry : cfg.dieHarderOn = true → ∀ j p, (cfg.layout id m').InBlock j p →
    env'.pageTable (Env.computePageNumber cfg p) = some ⟨id, j * (cfg.layout id m').per⟩
  other : ∀ p, (∀ j, ¬ (cfg.layout id m').InBlock j p) →
    env'.pageTable (Env.computePageNumber cfg p) = env.pageTable (Env.computePageNumber cfg p)

theorem Env.Fresh.offers {id : MiniId} {source : Nat → Addr} {env : Env} (hf : env.Fresh cfg id source) :
    (cfg.miniHeapType id).Offers source := by
  refine ⟨fun j hj => (hf.1 j hj).2.1, ?_, hf.2⟩
  intro hd
  have hd' : cfg.dieHarderOn = false := hd
  have hcount : (cfg.sourceLayout id source).count = 1 := by
    simp [HeapConfig.sourceLayout, HeapConfig.layout, hd']
  have hbase : (cfg.sourceLayout id source).base 0 = source 0 := by
    simp [HeapConfig.sourceLayout, HeapConfig.layout, hd']
  rw [← hbase]
  exact (hf.1 0 (by omega)).1

theorem activate_spec {id : MiniId} {source : Nat → Addr} {m : MiniHeap} {env : Env}
    (hf : env.Fresh cfg id source) (hm : m.isHeapActivated = false) :
    Activation cfg id source env (RandomMiniHeap.activate cfg id source m env).1
      (RandomMiniHeap.activate cfg id source m env).2 := by
  have hact : (cfg.miniHeapType id).Activation id source env
      (RandomMiniHeap.activate cfg id source m env).1 (RandomMiniHeap.activate cfg id source m env).2 := by
    by_cases hd : cfg.dieHarderOn = true
    · rw [RandomMiniHeap.activate, if_pos hd, RandomMiniHeapDieHarder.activate, hm,
        if_neg Bool.false_ne_true]
      exact MiniHeapType.activate_dieHarder hd hf.offers
    · rw [RandomMiniHeap.activate, if_neg hd]
      exact MiniHeapType.activate_dieHard (Bool.eq_false_iff.mpr hd) hf.offers hm
  exact ⟨hact.activated, hact.clear, hact.base, hact.mapped, hact.entry, hact.other⟩

end DieHard
