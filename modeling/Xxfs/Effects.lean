import Xxfs.InodeSteps

namespace Xxfs.Soundness

open Function
open Xxfs.DiskFormat Xxfs.Machine Xxfs.Allocator Xxfs.PagedIndex Xxfs.PageStore Xxfs.InodeCache
open Xxfs.DirCache Xxfs.Volume Xxfs.Operations Xxfs.Hash Xxfs.PathName Xxfs.IndexRep Xxfs.CacheMap
open Xxfs.IndexState Xxfs.OperationFrames Xxfs.Checksum
open Xxfs.Lib Xxfs.Lib.Computation Xxfs.Lib.Computation.Comp

/-- The children of a directory, as a listing shows them. -/
def listing (m : Inodes) (fs : Fs) (d : Path) : Option (List DirChild) :=
  match dcacheFind fs d with
  | some e => some e.children
  | none => (m d).map (diskChildren fs.img)

/-- What an operation on the paths `P` and on the listings of `D` does to everything else: the
directories `W` may be written back, with new inodes, and nothing else shows. -/
structure Effect (P D W : Set Path) (m m' : Inodes) (fs fs' : Fs) : Prop where
  inodes : ∀ p, p ∉ P → m' p = m p ∧ seen m' fs' p = seen m fs p ∨
    p ∈ W ∧ ∃ n n', m p = some n ∧ n.iFileType = ftDir ∧ n'.iFileType = ftDir ∧ m' p = some n'
  listing : ∀ p n, p ∉ P → p ∉ D → m p = some n → n.iFileType = ftDir →
    listing m' fs' p = listing m fs p
  data : ∀ p n, p ∉ P → seen m fs p = some n → (n.iFileType = ftDir → p ∉ W) → ∀ i ∈ extent n,
    fs'.img.data i = fs.img.data i

section effect

variable {P D W P' D' W' : Set Path} {m m₁ m₂ : Inodes} {fs fs₁ fs₂ : Fs}

theorem Effect.refl (P D W : Set Path) (m : Inodes) (fs : Fs) : Effect P D W m m fs fs :=
  ⟨fun _ _ ↦ .inl ⟨rfl, rfl⟩, fun _ _ _ _ _ _ ↦ rfl, fun _ _ _ _ _ _ _ ↦ rfl⟩

theorem Effect.mono (h : Effect P D W m m₁ fs fs₁) (hP : P ⊆ P') (hD : D ⊆ D') (hW : W ⊆ W') :
    Effect P' D' W' m m₁ fs fs₁ := by
  refine ⟨fun p hp ↦ ?_, fun p n hp hd ↦ h.listing p n (fun hc ↦ hp (hP hc)) fun hc ↦ hd (hD hc),
    fun p n hp hn ht ↦ h.data p n (fun hc ↦ hp (hP hc)) hn fun hd hw ↦ ht hd (hW hw)⟩
  rcases h.inodes p (fun hc ↦ hp (hP hc)) with hsame | ⟨hw, hn⟩
  · exact .inl hsame
  · exact .inr ⟨hW hw, hn⟩

theorem Effect.kind (h : Effect P D W m m₁ fs fs₁) {p : Path} (hp : p ∉ P) :
    kind m₁ p = kind m p := by
  rcases h.inodes p hp with ⟨hm, -⟩ | ⟨-, n, n', hn, ht, ht', hn'⟩
  · rw [Soundness.kind, Soundness.kind, hm]
  · rw [Soundness.kind, Soundness.kind, hn, hn', Option.map_some, Option.map_some, ht, ht']

theorem Effect.dir (h : Effect P D W m m₁ fs fs₁) {p : Path} (hp : p ∉ P) {n : Inode}
    (hn : m p = some n) (ht : n.iFileType = ftDir) : ∃ n₁, m₁ p = some n₁ ∧ n₁.iFileType = ftDir := by
  rcases h.inodes p hp with ⟨hm, -⟩ | ⟨-, -, n', -, -, ht', hn'⟩
  · exact ⟨n, hm.trans hn, ht⟩
  · exact ⟨n', hn', ht'⟩

theorem Effect.stays (h : Effect P D W m m₁ fs fs₁) (hc : ∀ p, CoherentAt (cell fs.icache p) (m p))
    {p : Path} (hp : p ∉ P) {n : Inode} (hn : seen m fs p = some n)
    (ht : n.iFileType = ftDir → p ∉ W) : m₁ p = m p ∧ seen m₁ fs₁ p = some n := by
  rcases h.inodes p hp with ⟨hm, hs⟩ | ⟨hw, x, x', hx, htx, -⟩
  · exact ⟨hm, hs.trans hn⟩
  · rw [seen, cur_dir (hc p) hx htx] at hn
    obtain rfl := Option.some.inj hn
    exact (ht htx hw).elim

theorem Effect.trans (h : Effect P D W m m₁ fs fs₁) (h' : Effect P D W m₁ m₂ fs₁ fs₂)
    (hc : ∀ p, CoherentAt (cell fs.icache p) (m p)) : Effect P D W m m₂ fs fs₂ := by
  refine ⟨fun p hp ↦ ?_, fun p n hp hd hn ht ↦ ?_, fun p n hp hn ht i hi ↦ ?_⟩
  · rcases h.inodes p hp with ⟨hm, hs⟩ | ⟨hw, n, n', hn, ht, ht', hn'⟩
    · rcases h'.inodes p hp with ⟨hm', hs'⟩ | ⟨hw, x, x', hx, htx, htx', hx'⟩
      · exact .inl ⟨hm'.trans hm, hs'.trans hs⟩
      · exact .inr ⟨hw, x, x', hm ▸ hx, htx, htx', hx'⟩
    · obtain ⟨x, hx, htx⟩ := h'.dir hp hn' ht'
      exact .inr ⟨hw, n, x, hn, ht, htx, hx⟩
  · obtain ⟨n₁, hn₁, ht₁⟩ := h.dir hp hn ht
    exact (h'.listing p n₁ hp hd hn₁ ht₁).trans (h.listing p n hp hd hn ht)
  · obtain ⟨-, hn₁⟩ := h.stays hc hp hn ht
    exact (h'.data p n hp hn₁ ht i hi).trans (h.data p n hp hn ht i hi)

end effect

section same

variable {K : Path → Prop} {m : Inodes} {fs fs' : Fs}

theorem dcacheFind_congr (hd : fs'.dcache = fs.dcache) (d : Path) :
    dcacheFind fs' d = dcacheFind fs d := by
  rw [dcacheFind, dcacheFind, hd]

theorem dcacheFind_set {idx : ℕ} {e : DirCacheEntry} (d : Path) :
    dcacheFind { fs with dcache := fun i ↦ if i = idx then e else fs.dcache i } d =
      if dcIndex d = idx then (if e.valid = true ∧ e.path = d then some e else none)
      else dcacheFind fs d := by
  simp only [dcacheFind]
  split <;> rfl

theorem listing_clock (m : Inodes) (fs : Fs) (t : ℕ) (q : Path) :
    listing m { fs with clock := t } q = listing m fs q := by
  rw [listing, listing, dcacheFind, dcacheFind]

theorem listing_relock (m : Inodes) (fs : Fs) (l : Lock) (q : Path) :
    listing m { fs with lock := l } q = listing m fs q := by
  rw [listing, listing, dcacheFind, dcacheFind]

theorem listing_congr (hd : fs'.dcache = fs.dcache) (hi : fs'.img = fs.img) (q : Path) :
    listing m fs' q = listing m fs q := by
  rw [listing, listing, dcacheFind_congr hd, hi]

theorem listing_disk (hd : fs'.dcache = fs.dcache) {q : Path} {n : Inode} (hn : m q = some n)
    (hdisk : diskChildren fs'.img n = diskChildren fs.img n) : listing m fs' q = listing m fs q := by
  rw [listing, listing, dcacheFind_congr hd, hn, Option.map_some, Option.map_some, hdisk]

theorem effect_same (P D W : Set Path) (m : Inodes) (hc : fs'.icache = fs.icache)
    (hd : fs'.dcache = fs.dcache) (hi : fs'.img = fs.img) : Effect P D W m m fs fs' :=
  ⟨fun _ _ ↦ .inl ⟨rfl, by rw [seen_congr hc]⟩, fun p _ _ _ _ _ ↦ listing_congr hd hi p,
    fun _ _ _ _ _ _ _ ↦ by rw [hi]⟩

theorem Effect.start {P D W : Set Path} {m' : Inodes} {fs₁ : Fs} (h : Effect P D W m m' fs' fs₁)
    (hc : fs'.icache = fs.icache) (hd : fs'.dcache = fs.dcache) (hi : fs'.img = fs.img) :
    Effect P D W m m' fs fs₁ := by
  refine ⟨fun p hp ↦ ?_, fun p n hp hpd hn ht ↦ ?_, fun p n hp hn ht i hx ↦ ?_⟩
  · rw [← seen_congr hc]
    exact h.inodes p hp
  · rw [← listing_congr hd hi]
    exact h.listing p n hp hpd hn ht
  · rw [← hi]
    exact h.data p n hp ((congrFun (seen_congr hc) p).trans hn) ht i hx

variable {S : Set ℕ} (h : Sound K m S fs)
include h

theorem Sound.diskChildren_eq {p : Path} {n : Inode} (hn : m p = some n) (ht : n.iFileType = ftDir)
    {img : Image} (hdata : ∀ i ∈ extent n, img.data i = fs.img.data i) :
    diskChildren img n = diskChildren fs.img n :=
  diskChildren_congr ((h.owned.shape p n (cur_dir (h.coherent p) hn ht)).dir ht) hdata

theorem Sound.effect_ground (P W : Set Path) {m' : Inodes} (hm : ∀ p, p ∉ P → m' p = m p)
    (hc : ∀ p, p ∉ P → seen m' fs' p = seen m fs p) (hd : fs'.dcache = fs.dcache)
    (hM : Moves (ground m S fs) fs fs') : Effect P ∅ W m m' fs fs' := by
  refine ⟨fun p hp ↦ .inl ⟨hm p hp, hc p hp⟩, fun p n hp _ hn ht ↦ ?_,
    fun p n _ hn _ i hi ↦ hM.data i (extent_subset hn hi)⟩
  rw [listing, listing, dcacheFind_congr hd, hm p hp, hn, Option.map_some, Option.map_some,
    h.diskChildren_eq hn ht fun i hi ↦ hM.data i (extent_subset (cur_dir (h.coherent p) hn ht) hi)]

theorem Sound.effect_kept (P W : Set Path) (hk : Kept (ground m S fs) fs fs') :
    Effect P ∅ W m m fs fs' :=
  h.effect_ground P W (fun _ _ ↦ rfl) (fun _ _ ↦ by rw [seen_congr hk.only.icache]) hk.only.dcache
    (.of_kept hk)

theorem Sound.effect_fetched {p : Path} (hf : Fetched p m (ground m S fs) fs fs') :
    Effect ∅ ∅ ∅ m m fs fs' :=
  h.effect_ground ∅ ∅ (fun _ _ ↦ rfl) (fun _ _ ↦ by rw [hf.seen]) hf.dcache hf.moves

theorem Sound.effect_renewed {S' : Set ℕ} {p : Path} {n : Inode}
    (hR : Renewed K m S S' p n fs fs') : Effect {p} ∅ ∅ m (update m p (some n)) fs fs' := by
  refine h.effect_ground {p} ∅ (fun q hq ↦ update_of_ne hq _ _) (fun q hq ↦ ?_) hR.dcache hR.moves
  rw [seen, seen, cur, cur, hR.cells, update_of_ne hq, update_of_ne hq]

end same

/-- What an operation leaves that only looked: at most a cached copy more. -/
structure Looked (K : Path → Prop) (m : Inodes) (fs fs' : Fs) : Prop where
  sound : Sound K m ∅ fs'
  effect : Effect ∅ ∅ ∅ m m fs fs'
  dcache : fs'.dcache = fs.dcache
  count : fs'.sb.sInodesCount = fs.sb.sInodesCount

section looked

variable {K : Path → Prop} {m : Inodes} {fs fs₁ fs₂ : Fs}

theorem Looked.trans (h : Looked K m fs fs₁) (h' : Looked K m fs₁ fs₂)
    (hc : ∀ p, CoherentAt (cell fs.icache p) (m p)) : Looked K m fs fs₂ :=
  ⟨h'.sound, h.effect.trans h'.effect hc, h'.dcache.trans h.dcache, h'.count.trans h.count⟩

theorem Looked.seen (h : Looked K m fs fs₁) : seen m fs₁ = seen m fs := by
  funext p
  rcases h.effect.inodes p (Set.notMem_empty _) with ⟨-, hs⟩ | ⟨hw, -⟩
  · exact hs
  · exact hw.elim

theorem Looked.listing (h : Looked K m fs fs₁) {d : Path} (hd : Soundness.kind m d = some ftDir) :
    listing m fs₁ d = listing m fs d := by
  obtain ⟨n, hn, ht⟩ := Option.map_eq_some_iff.mp hd
  exact h.effect.listing d n (Set.notMem_empty _) (Set.notMem_empty _) hn ht

theorem Sound.looked_same (h : Sound K m ∅ fs) (himg : fs₁.img = fs.img)
    (hpd : fs₁.pdir = fs.pdir) (hpc : fs₁.pcache = fs.pcache) (hi : fs₁.icache = fs.icache)
    (hd : fs₁.dcache = fs.dcache) (hsb : fs₁.sb = fs.sb) : Looked K m fs fs₁ := by
  refine ⟨h.same himg hpd hpc hi hd ?_, effect_same _ _ _ m hi hd himg, hd, by rw [hsb]⟩
  rw [hsb]
  exact ⟨rfl, rfl, rfl, rfl, rfl⟩

theorem Sound.relock (h : Sound K m ∅ fs) (l : Lock) : Looked K m fs { fs with lock := l } :=
  h.looked_same rfl rfl rfl rfl rfl rfl

theorem Sound.atClock (h : Sound K m ∅ fs) (t : ℕ) : Looked K m fs { fs with clock := t } :=
  h.looked_same rfl rfl rfl rfl rfl rfl

theorem Sound.looked_fetched (h : Sound K m ∅ fs) {p : Path}
    (hf : Fetched p m (ground m ∅ fs) fs fs₁) (hs : Sound K m ∅ fs₁) : Looked K m fs fs₁ :=
  ⟨hs, h.effect_fetched hf, hf.dcache, by rw [hf.sb]⟩

theorem Sound.looked_kept (h : Sound K m ∅ fs) (hk : Kept (ground m ∅ fs) fs fs₁)
    (hs : Sound K m ∅ fs₁) : Looked K m fs fs₁ :=
  ⟨hs, h.effect_kept ∅ ∅ hk, hk.only.dcache, hk.only.inodes⟩

end looked

end Xxfs.Soundness
