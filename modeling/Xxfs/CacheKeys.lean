import Xxfs.Frames
import Xxfs.Runs
import Xxfs.Seal

namespace Xxfs.CacheKeys

open Xxfs.DiskFormat Xxfs.Machine Xxfs.Allocator Xxfs.PageCache Xxfs.PagedIndex Xxfs.InodeCache
open Xxfs.DirCache Xxfs.Volume Xxfs.Operations Xxfs.Runs Xxfs.Frames Xxfs.Hash Xxfs.Checksum
open Xxfs.Lib.Computation Xxfs.Lib.Computation.Comp Xxfs.Lib.ProbeTable

/-- Every entry of the inode cache stands under the hash of its key. -/
def KeysHashed (c : Icache) : Prop :=
  ∀ i e k, c.slots i = some e → e.key = some k → e.hash = xxh64 k

/-- The lock is left as it was. -/
structure SameLock (fs fs' : Fs) : Prop where
  lock : fs'.lock = fs.lock
  flags : fs'.flags = fs.flags

instance : Std.Refl SameLock where
  refl _ := ⟨rfl, rfl⟩

instance : IsTrans Fs SameLock where
  trans _ _ _ h h' := ⟨h'.lock.trans h.lock, h'.flags.trans h.flags⟩

/-- What holds of every function that runs under the lock. -/
structure Inside (fs fs' : Fs) : Prop extends SameLock fs fs' where
  spent : Spent fs.sb fs'.sb
  keys : KeysHashed fs.icache → KeysHashed fs'.icache
  passed : Passed ConsistentVal fs.passed fs'.passed
  size : fs.img.size ≤ fs'.img.size

instance : Std.Refl Inside where
  refl _ := ⟨⟨rfl, rfl⟩, Spent.rfl, id, Passed.rfl, le_rfl⟩

instance : IsTrans Fs Inside where
  trans _ _ _ h h' := ⟨trans_of SameLock h.toSameLock h'.toSameLock, h.spent.trans h'.spent,
    h'.keys ∘ h.keys, h.passed.trans h'.passed, h.size.trans h'.size⟩

theorem Inside.ofIndexOnly {fs fs' : Fs} (h : IndexOnly ConsistentVal fs fs') : Inside fs fs' :=
  ⟨⟨h.lock, h.flags⟩, h.spent, fun hk ↦ by rwa [h.icache], h.passed, h.size⟩

theorem inside_of {α : Type} {m : FsM α} (h : Within (IndexOnly ConsistentVal) m) : Within Inside m :=
  fun s a s' hs ↦ .ofIndexOnly (h s a s' hs)

theorem KeysHashed.subset {c c' : Icache} (hk : KeysHashed c)
    (h : ∀ i e, c'.slots i = some e → ∃ j, c.slots j = some e) : KeysHashed c' := by
  intro i e k he hkey
  obtain ⟨j, hj⟩ := h i e he
  exact hk j e k hj hkey

theorem KeysHashed.store {c c' : Icache} {idx : ℕ} {e : IcacheEntry} (hk : KeysHashed c)
    (hs : c'.slots = store c.slots idx (some e)) (he : ∀ k, e.key = some k → e.hash = xxh64 k) :
    KeysHashed c' := by
  intro i x k hx hkey
  rw [hs] at hx
  rcases of_store hx with ⟨-, hx⟩ | ⟨-, hx⟩
  · obtain rfl := Option.some.inj hx
    exact he k hkey
  · exact hk i x k hx hkey

theorem KeysHashed.drop {c : Icache} (hk : KeysHashed c) (idx : ℕ) :
    KeysHashed (icacheDrop c idx) := by
  refine hk.subset fun i e he ↦ ?_
  rcases of_store he with ⟨-, h⟩ | ⟨-, h⟩
  · cases h
  · exact ⟨i, h⟩

theorem KeysHashed.grow {c : Icache} (hk : KeysHashed c) : KeysHashed (growTable c) := by
  refine hk.subset fun i e he ↦ ?_
  obtain ⟨j, -, hj⟩ := of_rehash he
  exact ⟨j, hj⟩

variable {P : List UInt8 → Prop} (env : Env)

theorem discard_inside {α : Type} {m : FsM α} (hm : Within Inside m) : Within Inside (discard m) :=
  .bind hm fun _ ↦ .pure _

theorem putEntry_inside (key : Option Path) (n : Inode) (now : UInt64) :
    Within Inside (putEntry env key (writebackInode n now)) := by
  cases key with
  | none => exact .diverge
  | some key => exact inside_of (pagedPut_indexOnly env _ (consistentVal_set _))

theorem modify_icache_inside {f : Icache → Icache} (hf : ∀ c, KeysHashed c → KeysHashed (f c)) :
    Within Inside (FsM.modify fun fs ↦ { fs with icache := f fs.icache }) :=
  .modify fun fs ↦ ⟨⟨rfl, rfl⟩, Spent.rfl, hf fs.icache, Passed.rfl, le_rfl⟩

theorem icacheEvictOne_inside : Within Inside (icacheEvictOne env) := by
  refine .bind .get fun fs ↦ ?_
  have hdrop (idx : ℕ) : Within Inside
      (FsM.modify fun fs ↦ { fs with icache := icacheDrop fs.icache idx }) :=
    modify_icache_inside fun c hc ↦ hc.drop idx
  dsimp only
  split
  · exact .pure _
  · split
    · exact .pure _
    · refine .ite (fun _ ↦ ?_) fun _ ↦ hdrop _
      exact .bind (inside_of (osTime_indexOnly env)) fun _ ↦
        .bind (discard_inside (putEntry_inside env _ _ _)) fun _ ↦ hdrop _

theorem icacheRoom_inside : Within Inside (icacheRoom env) := by
  refine .bind .get fun fs ↦ .ite (fun _ ↦ icacheEvictOne_inside env) fun _ ↦
    .ite (fun _ ↦ .bind (inside_of (osAlloc_indexOnly env)) fun _ ↦ .ite (fun _ ↦ ?_)
      fun _ ↦ .pure _) fun _ ↦ .pure _
  exact modify_icache_inside fun c hc ↦ hc.grow

theorem icachePlace_inside (key : Path) (n : Inode) :
    Within Inside (icachePlace env (xxh64 key) key n) := by
  refine .bind_get fun fs b fs' h ↦ ?_
  cases hp : probe (fun e ↦ e.hash == xxh64 key) fs.icache.slots (fs.icache.cap - 1)
      fs.icache.cap (home fs.icache.cap (xxh64 key)) with
  | none =>
    simp only [hp] at h
    exact Within.pure (R := Inside) _ fs b fs' h
  | some idx =>
    simp only [hp] at h
    cases he : fs.icache.slots idx with
    | none =>
      simp only [he] at h
      obtain ⟨ok, fs₁, h₁, h₂⟩ := of_bind h
      refine trans_of Inside (.ofIndexOnly (osAlloc_indexOnly env _ _ _ h₁)) ?_
      obtain ⟨-, rfl⟩ := Prod.mk.inj (Option.some.inj h₂)
      refine ⟨⟨rfl, rfl⟩, Spent.rfl, fun hk ↦ hk.store rfl fun k hkey ↦ ?_, Passed.rfl, le_rfl⟩
      cases ok with
      | false => cases hkey
      | true => obtain rfl := Option.some.inj hkey; rfl
    | some e =>
      simp only [he] at h
      obtain ⟨-, rfl⟩ := Prod.mk.inj (Option.some.inj h)
      exact ⟨⟨rfl, rfl⟩, Spent.rfl, fun hk ↦ hk.store rfl fun k hkey ↦ hk idx e k he hkey,
        Passed.rfl, le_rfl⟩

theorem icachePut_inside (key : Path) (n : Inode) :
    Within Inside (icachePut env (xxh64 key) key n) :=
  .bind (icacheRoom_inside env) fun _ ↦ icachePlace_inside env key n

theorem icacheDel_inside (hash : UInt64) : Within Inside (icacheDel hash) := by
  refine .bind .get fun fs ↦ ?_
  split
  · exact .pure _
  · exact modify_icache_inside fun c hc ↦ hc.drop _

theorem icacheFlushSlot_inside (i : ℕ) : Within Inside (icacheFlushSlot env i) := by
  refine .bind_get fun fs b fs' h ↦ ?_
  cases he : fs.icache.slots i with
  | none =>
    simp only [he] at h
    exact Within.pure (R := Inside) _ fs b fs' h
  | some e =>
    simp only [he, if_apply] at h
    split at h
    · obtain ⟨now, fs₁, h₁, h⟩ := of_bind h
      obtain ⟨u, fs₂, h₂, h⟩ := of_bind h
      obtain ⟨-, rfl⟩ := Prod.mk.inj (Option.some.inj h)
      have hin : Inside fs fs₂ := trans_of Inside (.ofIndexOnly (osTime_indexOnly env _ _ _ h₁))
        (discard_inside (putEntry_inside env _ _ _) _ _ _ h₂)
      refine ⟨⟨hin.lock, hin.flags⟩, hin.spent,
        fun hk ↦ (hin.keys hk).store rfl fun k hkey ↦ hk i e k he hkey, hin.passed, hin.size⟩
    · exact Within.pure (R := Inside) _ fs b fs' h

theorem icacheFlushAll_inside : Within Inside (icacheFlushAll env) :=
  .bind .get fun _ ↦ .forM _ fun i ↦ icacheFlushSlot_inside env i

theorem inodePagedGet_indexOnly (key : Path) : Within (IndexOnly P) (inodePagedGet env key) := by
  refine .bind (pagedGet_indexOnly env _ _) fun r ↦ ?_
  cases r with
  | error rc => exact .pure _
  | ok val => exact .pure _

theorem currentInode_indexOnly (path : Path) : Within (IndexOnly P) (currentInode env path) := by
  refine .bind .get fun fs ↦ ?_
  split
  · exact .pure _
  · exact inodePagedGet_indexOnly env path

theorem setDcache_inside (idx : ℕ) (e : DirCacheEntry) : Within Inside (setDcache idx e) :=
  .modify fun _ ↦ ⟨⟨rfl, rfl⟩, Spent.rfl, id, Passed.rfl, le_rfl⟩

theorem placeChildren_indexOnly (n : Inode) (children : List DirChild) :
    Within (IndexOnly P) (placeChildren env n children) := by
  refine .ite (fun _ ↦ .pure _) fun _ ↦ .ite (fun _ ↦ ?_) fun _ ↦ ?_
  · exact .bind (discard_indexOnly (osPwrite_indexOnly env _ _ _)) fun _ ↦ .pure _
  · refine .bind (pageAlloc_indexOnly env) fun off ↦ .ite (fun _ ↦ .pure _) fun _ ↦ ?_
    exact .bind (osPwrite_indexOnly env _ _ _) fun _ ↦ .ite (fun _ ↦ .pure _) fun _ ↦ .pure _

theorem dcacheFlushEntry_inside (idx : ℕ) : Within Inside (dcacheFlushEntry env idx) := by
  refine .bind .get fun fs ↦ .ite (fun _ ↦ .pure _) fun _ ↦
    .bind (inside_of (currentInode_indexOnly env _)) fun r ↦ ?_
  cases r with
  | error rc => exact .pure _
  | ok n =>
    refine .bind (inside_of (placeChildren_indexOnly env _ _)) fun r ↦ ?_
    cases r with
    | none => exact .pure _
    | some n =>
      refine .bind (inside_of (osTime_indexOnly env)) fun now ↦
        .bind (inside_of (pagedPut_indexOnly env _ (consistentVal_set _))) fun rc ↦ .ite (fun _ ↦ ?_)
          fun _ ↦ setDcache_inside _ _
      exact .bind (icachePut_inside env _ _) fun _ ↦ setDcache_inside _ _

theorem dcacheFlushAll_inside : Within Inside (dcacheFlushAll env) :=
  .forM _ fun i ↦ .bind .get fun _ ↦ .ite (fun _ ↦ dcacheFlushEntry_inside env i) fun _ ↦ .pure _

theorem loadChildren_inside (path : Path) (n : Inode) :
    Within Inside (loadChildren env path n) := by
  refine .ite (fun _ ↦ .bind .get fun fs ↦ ?_) fun _ ↦ .pure _
  refine .bind (inside_of (osAlloc_indexOnly env)) fun _ ↦ .ite (fun _ ↦ ?_) fun _ ↦ .pure _
  exact .bind (inside_of (osPread_indexOnly env _ _ _)) fun r ↦ setDcache_inside _ _

theorem dcacheAlloc_inside (path : Path) : Within Inside (dcacheAlloc env path) := by
  refine .bind .get fun fs ↦ .ite (fun _ ↦ ?_) fun _ ↦ setDcache_inside _ _
  exact .bind (dcacheFlushEntry_inside env _) fun _ ↦ setDcache_inside _ _

theorem dirOpen_inside (path : Path) : Within Inside (dirOpen env path) := by
  refine .bind .get fun fs ↦ ?_
  split
  · exact .pure _
  · refine .bind (dcacheAlloc_inside env _) fun _ ↦ .bind .get fun fs ↦ ?_
    split
    · exact .bind (loadChildren_inside env _ _) fun _ ↦ .pure _
    · refine .bind (inside_of (inodePagedGet_indexOnly env _)) fun r ↦ ?_
      cases r with
      | error rc => exact .pure _
      | ok n => exact .bind (loadChildren_inside env _ _) fun _ ↦ .pure _

theorem dirAddChild_inside (dirPath name : Path) (type : UInt8) :
    Within Inside (dirAddChild env dirPath name type) := by
  refine .bind (dirOpen_inside env _) fun rc ↦ ?_
  split
  · refine .bind .get fun fs ↦ .ite (fun _ ↦ ?_)
      fun _ ↦ .bind (setDcache_inside _ _) fun _ ↦ .pure _
    exact .bind (inside_of (osAlloc_indexOnly env)) fun _ ↦
      .ite (fun _ ↦ .bind (setDcache_inside _ _) fun _ ↦ .pure _) fun _ ↦ .pure _
  · exact .pure _

theorem dirRemoveChild_inside (dirPath name : Path) :
    Within Inside (dirRemoveChild env dirPath name) := by
  refine .bind (dirOpen_inside env _) fun rc ↦ ?_
  split
  · refine .bind .get fun fs ↦ ?_
    dsimp only
    split
    · exact .pure _
    · exact .bind (setDcache_inside _ _) fun _ ↦ .pure _
  · exact .pure _

end Xxfs.CacheKeys
