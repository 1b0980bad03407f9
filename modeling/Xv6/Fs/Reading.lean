import Xv6.Fs.Code
import Xv6.Fs.Blocks
import Xv6.Interleave.Sequential

/-!
# Reading a file

Reading the bytes of a file that are all in blocks changes nothing: `bmap` finds the blocks and
`readi` returns the bytes. `ReadsOnly` says which operations are performed on the way.
-/

namespace Xv6.Fs

open Interleave Bytes FileView List

variable {Pid : Type}

/-- The file of an entry of the inode cache. -/
def State.fileOf (s : State Pid) (ip : InodePtr) : FileView := ⟨(s.inode ip).dinode, s.disk⟩

/-- An operation that only looks at the inode of an entry or at a block of its file. -/
def ReadsOnly (ip : InodePtr) (F : FileView) : Op → Prop
  | .dinode ip' => ip' = ip
  | .bread b => F.Owns b
  | _ => False

variable [DecidableEq Pid] {sb : Superblock} {p : Pid} {s : State Pid} {ip : InodePtr}
  {trace : List Op} {s' : State Pid}

theorem dinode_steps {α : Type} {rest : Dinode → Code α} {a : α}
    (h : Steps (exec sb p) (rest (s.inode ip).dinode) s trace a s') :
    Steps (exec sb p) (dinode ip >>= rest) s (.dinode ip :: trace) a s' :=
  .op rfl h

theorem bread_steps {α : Type} {b : Nat} {rest : Block → Code α} {a : α}
    (h : Steps (exec sb p) (rest (s.disk b)) s trace a s') :
    Steps (exec sb p) (Prog.perform (Op.bread b) >>= rest) s (.bread b :: trace) a s' :=
  .op rfl h

theorem bmapSlot_steps {k : Fin (NDIRECT + 1)} (h : (s.fileOf ip).slot (.addr k) ≠ 0) :
    Steps (exec sb p) (bmapSlot sb ip k) s [.dinode ip] ((s.fileOf ip).slot (.addr k)) s := by
  have hne : (s.inode ip).dinode.addrs k ≠ 0 := by
    intro hzero
    refine h ?_
    show ((s.inode ip).dinode.addrs k).toNat = 0
    rw [hzero]
    rfl
  refine dinode_steps ?_
  rw [if_neg hne]
  exact .ret _ s

theorem bmapEntry_steps {j : Fin NINDIRECT} (h : (s.fileOf ip).slot (.entry j) ≠ 0) :
    Steps (exec sb p) (bmapEntry sb ((s.fileOf ip).slot .indirect) j) s
      [.bread ((s.fileOf ip).slot .indirect)] ((s.fileOf ip).slot (.entry j)) s := by
  have hentry : (s.fileOf ip).slot (.entry j) =
      (s.disk ((s.fileOf ip).slot .indirect)).readLE 4 (4 * j) := by
    rw [slot_entry, if_neg (indirect_ne_zero h)]
    rfl
  rw [hentry] at h ⊢
  refine bread_steps ?_
  rw [if_neg h]
  exact .ret _ s

theorem bmap_steps {bn : Nat} (h : (s.fileOf ip).block bn ≠ 0) :
    ∃ trace, Steps (exec sb p) (bmap sb ip bn) s trace ((s.fileOf ip).block bn) s ∧
      ∀ o ∈ trace, ReadsOnly ip (s.fileOf ip) o := by
  unfold bmap
  split
  next hdirect =>
    rw [block_of_ofBlock (Slot.ofBlock_direct hdirect)] at h ⊢
    exact ⟨_, bmapSlot_steps h, by simp [ReadsOnly]⟩
  next hdirect =>
    split
    next hentry =>
      rw [block_of_ofBlock (Slot.ofBlock_entry hdirect hentry)] at h ⊢
      have hind := indirect_ne_zero h
      refine ⟨_, (bmapSlot_steps hind).bind (bmapEntry_steps h), ?_⟩
      intro o ho
      rcases mem_append.mp ho with ho | ho
      · obtain rfl := mem_singleton.mp ho
        rfl
      · obtain rfl := mem_singleton.mp ho
        exact Ownership.Lists.intro hind
    next hentry =>
      have hmax : MAXFILE = NDIRECT + NINDIRECT := rfl
      rw [block, Slot.ofBlock_none (by omega)] at h
      exact absurd rfl h

/-- The loop of `readi` returns the bytes of the file. -/
theorem readiFrom_steps {n fuel tot off : Nat} (hfuel : n - tot < fuel)
    (hblocks : ∀ k, k < n - tot → (s.fileOf ip).block ((off + k) / BSIZE) ≠ 0) :
    ∃ trace, Steps (exec sb p) (readiFrom sb ip (fun _ _ => true) n fuel tot off) s trace
        ((List.range (n - tot)).map fun k => (s.fileOf ip).byte (off + k)) s ∧
      ∀ o ∈ trace, ReadsOnly ip (s.fileOf ip) o := by
  induction fuel generalizing tot off with
  | zero => omega
  | succ fuel ih =>
    unfold readiFrom
    by_cases htot : tot < n
    · rw [if_pos htot]
      have hsize : BSIZE = 1024 := rfl
      obtain ⟨m, hm⟩ : ∃ m, m = min (n - tot) (BSIZE - off % BSIZE) := ⟨_, rfl⟩
      have hm' := hm
      rw [hsize] at hm'
      have hblock : (s.fileOf ip).block (off / BSIZE) ≠ 0 := hblocks 0 (by omega)
      obtain ⟨trace₁, hbmap, hreads₁⟩ :
          ∃ trace, Steps (exec sb p) (bmap sb ip (off / BSIZE)) s trace _ s ∧ _ := bmap_steps hblock
      obtain ⟨trace₂, hloop, hreads₂⟩ := @ih (tot + m) (off + m) (by omega) fun k hk => by
          rw [add_assoc]
          exact hblocks (m + k) (by omega)
      have hbytes : (List.range (n - tot)).map (fun k => (s.fileOf ip).byte (off + k)) =
          (List.range m).map (fun k =>
            (s.disk ((s.fileOf ip).block (off / BSIZE))).byte (off % BSIZE + k)) ++
          (List.range (n - (tot + m))).map fun k => (s.fileOf ip).byte (off + m + k) := by
        rw [show n - tot = m + (n - (tot + m)) by omega, range_add, map_append, map_map]
        congr 1
        · refine map_congr_left fun k hk => ?_
          have hk := mem_range.mp hk
          have hdiv : (off + k) / BSIZE = off / BSIZE := by
            rw [hsize]
            omega
          have hmod : (off + k) % BSIZE = off % BSIZE + k := by
            rw [hsize]
            omega
          unfold byte
          rw [hdiv, hmod, if_neg hblock]
          rfl
        · refine map_congr_left fun k _ => ?_
          show (s.fileOf ip).byte (off + (m + k)) = _
          rw [add_assoc]
      refine ⟨trace₁ ++ .bread ((s.fileOf ip).block (off / BSIZE)) :: (trace₂ ++ []), ?_, ?_⟩
      · rw [hbytes]
        refine hbmap.bind (bread_steps ?_)
        dsimp only
        rw [if_pos rfl, ← hm]
        exact hloop.bind (.ret _ s)
      · intro o ho
        simp only [append_nil, mem_append, mem_cons] at ho
        rcases ho with ho | rfl | ho
        · exact hreads₁ o ho
        · exact owns_block hblock
        · exact hreads₂ o ho
    · rw [if_neg htot, show n - tot = 0 by omega]
      exact ⟨[], .ret _ s, by simp⟩

/-- `readi` returns the bytes from `off` on, up to the end of the file. -/
theorem readi_steps {off n : Nat} (hoff : off ≤ (s.inode ip).dinode.size.toNat)
    (hsum : off + n < 2 ^ 32)
    (hblocks : ∀ k, k < (s.inode ip).dinode.size.toNat → (s.fileOf ip).block (k / BSIZE) ≠ 0) :
    ∃ trace, Steps (exec sb p) (readi sb ip (fun _ _ => true) off n) s trace
        ((min n ((s.inode ip).dinode.size.toNat - off) : Nat),
          (List.range (min n ((s.inode ip).dinode.size.toNat - off))).map fun k =>
            (s.fileOf ip).byte (off + k)) s ∧
      ∀ o ∈ trace, ReadsOnly ip (s.fileOf ip) o := by
  obtain ⟨size, hsize⟩ : ∃ size, size = (s.inode ip).dinode.size.toNat := ⟨_, rfl⟩
  rw [← hsize] at hoff hblocks ⊢
  have hcut : (if size < off + n then size - off else n) = min n (size - off) := by
    split <;> omega
  obtain ⟨trace, hloop, hreads⟩ : ∃ trace, Steps (exec sb p)
      (readiFrom sb ip (fun _ _ => true) (min n (size - off)) (min n (size - off) + 1) 0 off) s
      trace _ s ∧ ∀ o ∈ trace, ReadsOnly ip (s.fileOf ip) o :=
    readiFrom_steps (by omega) fun k hk => hblocks (off + k) (by omega)
  refine ⟨.dinode ip :: (trace ++ []), ?_, ?_⟩
  · refine dinode_steps ?_
    rw [← hsize, if_neg (by omega)]
    rw [hcut]
    exact hloop.bind (.ret _ s)
  · intro o ho
    simp only [append_nil, mem_cons] at ho
    rcases ho with rfl | ho
    · rfl
    · exact hreads o ho

end Xv6.Fs
