import Xxfs.FormatRoundTrip
import Xxfs.Frames
import Xxfs.Healthy

namespace Xxfs.PageStore

open Xxfs.DiskFormat Xxfs.Machine Xxfs.PageCache Xxfs.Frames Xxfs.Lib.LittleEndian
open Xxfs.Lib.Computation Xxfs.Lib.Computation.Comp

def InBlock (off : UInt64) (i : ℕ) : Prop := off.toNat ≤ i ∧ i < off.toNat + 4096

def diskPage (img : Image) (off : UInt64) : PagedPage :=
  PagedPage.decode fun i ↦ img.data (off.toNat + i)

/-- The page at `off` as the code sees it: the cached copy, else the stored one. -/
def pageAt (fs : Fs) (off : UInt64) : PagedPage :=
  match (fs.pcache (pcIndex off)).page with
  | some pg => if (fs.pcache (pcIndex off)).pageOff = off then pg else diskPage fs.img off
  | none => diskPage fs.img off

/-- An offset at which a block can be read and written. -/
structure Usable (off : UInt64) : Prop where
  aligned : off.toNat % 4096 = 0
  bound : off.toNat + 4096 ≤ 2 ^ 63

theorem Usable.disjoint {o o' : UInt64} (h : Usable o) (h' : Usable o') (hne : o ≠ o') {i : ℕ}
    (hi : InBlock o i) : ¬InBlock o' i := by
  intro hi'
  have h₁ := h.aligned
  have h₂ := h'.aligned
  obtain ⟨_, _⟩ := hi
  obtain ⟨_, _⟩ := hi'
  exact hne (UInt64.toNat_inj.mp (by omega))

/-- The page cache holds pages of `ps` only, each in its slot, and clean ones as stored. -/
structure PagesOk (fs : Fs) (ps : List UInt64) : Prop where
  usable : ∀ o ∈ ps, Usable o
  mem : ∀ i pg, (fs.pcache i).page = some pg → (fs.pcache i).pageOff ∈ ps
  slot : ∀ i pg, (fs.pcache i).page = some pg → pcIndex (fs.pcache i).pageOff = i
  clean : ∀ i pg, (fs.pcache i).page = some pg → (fs.pcache i).dirty = false →
    diskPage fs.img (fs.pcache i).pageOff = pg

theorem diskPage_congr {img' : Image} (img : Image) {off : UInt64}
    (h : ∀ i, InBlock off i → img'.data i = img.data i) : diskPage img' off = diskPage img off :=
  PagedPage.decode_congr fun j hj ↦ h _ ⟨by omega, by change j < 4096 at hj; omega⟩

theorem diskPage_eq {img : Image} {off : UInt64} {pg : PagedPage}
    (h : ∀ i < 4096, img.data (off.toNat + i) = pg.encode i) : diskPage img off = pg := by
  rw [diskPage, PagedPage.decode_congr (g := pg.encode) h, PagedPage.decode_encode]

theorem diskPage_write (img : Image) (pg : PagedPage) (off : UInt64) :
    diskPage (img.write pg.encode pageSize off.toNat) off = pg := by
  apply diskPage_eq
  intro i hi
  rw [Image.write_in _ _ (by omega) (by change _ < _ + 4096; omega), Nat.add_sub_cancel_left]

theorem write_outBlock (img : Image) (src : ℕ → UInt8) {len : ℕ} {off : UInt64} {i : ℕ}
    (hl : len ≤ 4096) (h : ¬InBlock off i) :
    (img.write src len off.toNat).data i = img.data i := by
  apply Image.write_out
  unfold InBlock at h
  omega

/-- Reading through the cache: the pages of `ps` and all bytes outside them stay. -/
structure Quiet (ps : List UInt64) (fs fs' : Fs) : Prop where
  sb : fs'.sb = fs.sb
  pdir : fs'.pdir = fs.pdir
  pages : ∀ o ∈ ps, pageAt fs' o = pageAt fs o
  data : ∀ i, (∀ o ∈ ps, ¬InBlock o i) → fs'.img.data i = fs.img.data i
  size : fs.img.size ≤ fs'.img.size

instance (ps : List UInt64) : Std.Refl (Quiet ps) where
  refl _ := ⟨rfl, rfl, fun _ _ ↦ rfl, fun _ _ ↦ rfl, le_rfl⟩

instance (ps : List UInt64) : IsTrans Fs (Quiet ps) where
  trans _ _ _ h h' := ⟨h'.sb.trans h.sb, h'.pdir.trans h.pdir,
    fun o ho ↦ (h'.pages o ho).trans (h.pages o ho),
    fun i hi ↦ (h'.data i hi).trans (h.data i hi), h.size.trans h'.size⟩

theorem PagesOk.clock {fs : Fs} {ps : List UInt64} (h : PagesOk fs ps) (c : ℕ) :
    PagesOk { fs with clock := c } ps :=
  ⟨h.usable, h.mem, h.slot, h.clean⟩

theorem quiet_clock (ps : List UInt64) (fs : Fs) (c : ℕ) : Quiet ps fs { fs with clock := c } :=
  ⟨rfl, rfl, fun _ _ ↦ rfl, fun _ _ ↦ rfl, le_rfl⟩

section cache

variable (fs : Fs) {ps : List UInt64}

theorem pageAt_of_cached {off : UInt64} {pg : PagedPage}
    (hp : (fs.pcache (pcIndex off)).page = some pg)
    (ho : (fs.pcache (pcIndex off)).pageOff = off) : pageAt fs off = pg := by
  simp only [pageAt, hp, ho, ↓reduceIte]

theorem pageAt_of_absent {off : UInt64} (h : ∀ pg, (fs.pcache (pcIndex off)).page = some pg →
    (fs.pcache (pcIndex off)).pageOff ≠ off) : pageAt fs off = diskPage fs.img off := by
  unfold pageAt
  split
  · rename_i pg hpg
    rw [if_neg (h pg hpg)]
  · rfl

theorem pageAt_emptied (fs' : Fs) {idx : ℕ} {c : PagedCache} (hk : PagesOk fs ps)
    (hcache : fs'.pcache = fun i ↦ if i = idx then c else fs.pcache i) (hc : c.page = none)
    (hdata : ∀ i, (∀ pg, (fs.pcache idx).page = some pg → (fs.pcache idx).dirty = true →
      ¬InBlock (fs.pcache idx).pageOff i) → fs'.img.data i = fs.img.data i)
    (hstored : ∀ pg, (fs.pcache idx).page = some pg → (fs.pcache idx).dirty = true →
      diskPage fs'.img (fs.pcache idx).pageOff = pg) {o : UInt64} (ho : o ∈ ps) :
    pageAt fs' o = pageAt fs o := by
  have hdisk (hne : ∀ pg, (fs.pcache idx).page = some pg → (fs.pcache idx).pageOff ≠ o) :
      diskPage fs'.img o = diskPage fs.img o := by
    refine diskPage_congr _ fun i hi ↦ hdata i fun pg hpg _ ↦ ?_
    exact (hk.usable o ho).disjoint (hk.usable _ (hk.mem idx pg hpg)) (hne pg hpg).symm hi
  by_cases hidx : pcIndex o = idx
  · have hn : (fs'.pcache (pcIndex o)).page = none := by rw [hcache, hidx]; simp [hc]
    rw [pageAt_of_absent fs' (by simp [hn])]
    cases hp : (fs.pcache idx).page with
    | none =>
      rw [hdisk (by simp [hp]), pageAt_of_absent fs (by simp [hidx, hp])]
    | some pg =>
      by_cases hoff : (fs.pcache idx).pageOff = o
      · rw [pageAt_of_cached fs (by rw [hidx, hp]) (by rw [hidx, hoff])]
        cases hd : (fs.pcache idx).dirty with
        | true => rw [← hoff]; exact hstored pg hp hd
        | false =>
          rw [← hk.clean idx pg hp hd, hoff]
          refine diskPage_congr _ fun i _ ↦ hdata i fun pg' _ hd' ↦ ?_
          rw [hd] at hd'
          cases hd'
      · rw [hdisk fun pg' hpg' ↦ hoff, pageAt_of_absent]
        intro pg' _
        rw [hidx]
        exact hoff
  · have hsame : fs'.pcache (pcIndex o) = fs.pcache (pcIndex o) := by rw [hcache]; simp [hidx]
    unfold pageAt
    rw [hsame]
    have hd : diskPage fs'.img o = diskPage fs.img o := by
      refine hdisk fun pg hpg heq ↦ hidx ?_
      rw [← heq]
      exact hk.slot idx pg hpg
    rw [hd]

theorem pageAt_filled (fs' : Fs) {off : UInt64} (himg : fs'.img = fs.img)
    (hn : (fs.pcache (pcIndex off)).page = none)
    (hcache : fs'.pcache = fun i ↦ if i = pcIndex off then ⟨off, some (diskPage fs.img off), false⟩
      else fs.pcache i) (o : UInt64) : pageAt fs' o = pageAt fs o := by
  by_cases hidx : pcIndex o = pcIndex off
  · rw [pageAt_of_absent fs (by simp [hidx, hn])]
    simp only [pageAt, hcache, hidx, ↓reduceIte, himg]
    split
    · rename_i h
      rw [h]
    · rfl
  · simp only [pageAt, hcache, hidx, ↓reduceIte, himg]

end cache

section load

variable {env : Env} {fs : Fs} {ps : List UInt64} {off : UInt64}

theorem fill_of_calls (hm : env.mem fs.clock = true) (hio : env.io (fs.clock + 1) = true)
    (hu : Usable off) (idx : ℕ) (c : PagedCache) :
    pageLoad.fill env off idx c fs = some (some (diskPage fs.img off), { fs with
      pcache := fun i ↦ if i = idx then ⟨off, some (diskPage fs.img off), false⟩ else fs.pcache i
      clock := fs.clock + 2 }) := by
  have hb := hu.bound
  have hdec : PagedPage.decode (fun i ↦ if i < min pageSize (fs.img.size - off.toNat) then
      fs.img.data (off.toNat + i) else 0) = diskPage fs.img off := by
    apply PagedPage.decode_congr
    intro j hj
    split
    · rfl
    · rename_i hlt
      refine (fs.img.zero_beyond _ ?_).symm
      change j < pageSize at hj
      omega
  have hset (f : ℕ → PagedCache) (d : PagedCache) :
      (fun i ↦ if i = idx then d else if i = idx then c else f i) =
        fun i ↦ if i = idx then d else f i := by
    funext i
    split <;> rfl
  rw [pageLoad.fill, bind_apply, setPcache]
  simp only [modify_apply, Option.bind_some, bind_apply]
  simp only [osAlloc, bind_apply, tick_apply, Option.bind_some, pure_apply, hm, ↓reduceIte]
  rw [osPread_of_io _ hio _ _ (by omega), Option.bind_some]
  dsimp only
  rw [hdec]
  simp only [bind_apply, setPcache, modify_apply, Option.bind_some, pure_apply, hset]

theorem fill_apply (he : Healthy env) (hu : Usable off) (idx : ℕ) (c : PagedCache) :
    pageLoad.fill env off idx c fs = some (some (diskPage fs.img off), { fs with
      pcache := fun i ↦ if i = idx then ⟨off, some (diskPage fs.img off), false⟩ else fs.pcache i
      clock := fs.clock + 2 }) :=
  fill_of_calls (he.mem _) (he.io _) hu idx c

theorem PagesOk.filled (hk : PagesOk fs ps) (ho : off ∈ ps) {fs' : Fs}
    (hcache : fs'.pcache = fun i ↦ if i = pcIndex off then ⟨off, some (diskPage fs'.img off), false⟩
      else fs.pcache i)
    (hdata : ∀ i pg, i ≠ pcIndex off → (fs.pcache i).page = some pg →
      diskPage fs'.img (fs.pcache i).pageOff = diskPage fs.img (fs.pcache i).pageOff) :
    PagesOk fs' ps := by
  refine ⟨hk.usable, fun i pg hp ↦ ?_, fun i pg hp ↦ ?_, fun i pg hp hd ↦ ?_⟩ <;>
    by_cases hi : i = pcIndex off <;> simp only [hcache, hi, ↓reduceIte] at hp ⊢
  · exact ho
  · exact hk.mem i pg hp
  · exact hk.slot i pg hp
  · exact Option.some.inj hp
  · simp only [hcache, hi, ↓reduceIte] at hd
    rw [hdata i pg hi hp]
    exact hk.clean i pg hp hd

/-- A miss: the page in the slot is stored if dirty, then the wanted one read. -/
theorem load_miss (hk : PagesOk fs ps) (ho : off ∈ ps) (img : Image) (clock : ℕ)
    (hdata : ∀ i, (∀ pg, (fs.pcache (pcIndex off)).page = some pg →
      (fs.pcache (pcIndex off)).dirty = true →
      ¬InBlock (fs.pcache (pcIndex off)).pageOff i) → img.data i = fs.img.data i)
    (hstored : ∀ pg, (fs.pcache (pcIndex off)).page = some pg →
      (fs.pcache (pcIndex off)).dirty = true →
      diskPage img (fs.pcache (pcIndex off)).pageOff = pg) (hsize : fs.img.size ≤ img.size) :
    let fs' : Fs := { fs with
      img := img
      pcache := fun i ↦ if i = pcIndex off then ⟨off, some (diskPage img off), false⟩
        else fs.pcache i
      clock := clock }
    pageAt fs off = diskPage img off ∧ PagesOk fs' ps ∧ Quiet ps fs fs' := by
  intro fs'
  let mid : Fs := { fs with
    img := img
    pcache := fun i ↦ if i = pcIndex off then ⟨off, none, false⟩ else fs.pcache i }
  have hmid (o : UInt64) (ho : o ∈ ps) : pageAt mid o = pageAt fs o :=
    pageAt_emptied fs mid hk rfl rfl hdata hstored ho
  have hfill (o : UInt64) : pageAt fs' o = pageAt mid o := by
    have hcache : fs'.pcache = fun i ↦ if i = pcIndex off then
        ⟨off, some (diskPage mid.img off), false⟩ else mid.pcache i := by
      funext i
      simp only [fs', mid]
      split <;> rfl
    have hn : (mid.pcache (pcIndex off)).page = none := by simp [mid]
    exact pageAt_filled mid fs' rfl hn hcache o
  refine ⟨?_, hk.filled ho rfl fun i pg hi hp ↦ ?_, rfl, rfl,
    fun o ho ↦ (hfill o).trans (hmid o ho), fun i hi ↦ hdata i fun pg hpg _ ↦ hi _ ?_, hsize⟩
  · rw [← hmid off ho]
    exact pageAt_of_absent mid (by simp [mid])
  · refine diskPage_congr _ fun j hj ↦ hdata j fun pg' hpg' _ ↦ ?_
    refine (hk.usable _ (hk.mem i pg hp)).disjoint (hk.usable _ (hk.mem _ pg' hpg')) ?_ hj
    intro heq
    exact hi (by rw [← hk.slot i pg hp, heq, hk.slot _ pg' hpg'])
  · exact hk.mem _ pg hpg

theorem pageLoad_apply (he : Healthy env) (hk : PagesOk fs ps) (ho : off ∈ ps) :
    ∃ fs', pageLoad env off fs = some (some (pageAt fs off), fs') ∧ PagesOk fs' ps ∧
      Quiet ps fs fs' := by
  have hu := hk.usable off ho
  cases hp : (fs.pcache (pcIndex off)).page with
  | none =>
    obtain ⟨hpage, hok, hq⟩ := load_miss hk ho fs.img (fs.clock + 2)
      (fun _ _ ↦ rfl) (by simp [hp]) le_rfl
    refine ⟨_, ?_, hok, hq⟩
    rw [hpage, pageLoad, bind_apply]
    simp only [get_apply, Option.bind_some, hp]
    exact fill_apply he hu _ _
  | some pg =>
    by_cases hoff : (fs.pcache (pcIndex off)).pageOff = off
    · refine ⟨fs, ?_, hk, refl_of (Quiet ps) fs⟩
      rw [pageAt_of_cached fs hp hoff, pageLoad, bind_apply]
      simp only [get_apply, Option.bind_some, hp, hoff, ↓reduceIte, pure_apply]
    · cases hd : (fs.pcache (pcIndex off)).dirty with
      | false =>
        obtain ⟨hpage, hok, hq⟩ := load_miss hk ho fs.img (fs.clock + 2)
          (fun _ _ ↦ rfl) (by simp [hd]) le_rfl
        refine ⟨_, ?_, hok, hq⟩
        rw [hpage, pageLoad, bind_apply]
        simp only [get_apply, Option.bind_some, hp, hoff, hd, ↓reduceIte, Bool.false_eq_true]
        exact fill_apply he hu _ _
      | true =>
        have hu' := hk.usable _ (hk.mem _ pg hp)
        have hb := hu'.bound
        obtain ⟨hpage, hok, hq⟩ := load_miss hk ho
          (fs.img.write pg.encode pageSize (fs.pcache (pcIndex off)).pageOff.toNat)
          (fs.clock + 1 + 2)
          (fun i hi ↦ write_outBlock _ _ le_rfl (hi pg hp hd))
          (fun pg' hpg' _ ↦ by
            obtain rfl : pg = pg' := Option.some.inj (hp.symm.trans hpg')
            exact diskPage_write _ _ _) (Image.write_size _ _ _ _)
        refine ⟨_, ?_, hok, hq⟩
        rw [hpage, pageLoad, bind_apply]
        simp only [get_apply, Option.bind_some, hp, hoff, hd, ↓reduceIte, bind_apply,
          discard_apply]
        rw [he.osPwrite_apply _ _ _ (by omega)]
        simp only [Option.bind_some]
        exact fill_apply he hu _ _

end load

section store

variable {env : Env} {fs : Fs} {ps : List UInt64} {off : UInt64}

theorem pageAt_of_data {fs' : Fs} (hc : fs'.pcache = fs.pcache)
    (hd : ∀ o ∈ ps, ∀ i, InBlock o i → fs'.img.data i = fs.img.data i) {o : UInt64}
    (ho : o ∈ ps) : pageAt fs' o = pageAt fs o := by
  unfold pageAt
  rw [hc, diskPage_congr _ (hd o ho)]

theorem PagesOk.of_data {fs' : Fs} (hk : PagesOk fs ps) (hc : fs'.pcache = fs.pcache)
    (hd : ∀ o ∈ ps, ∀ i, InBlock o i → fs'.img.data i = fs.img.data i) : PagesOk fs' ps := by
  refine ⟨hk.usable, fun i pg hp ↦ ?_, fun i pg hp ↦ ?_, fun i pg hp hdirty ↦ ?_⟩ <;>
    rw [hc] at hp ⊢
  · exact hk.mem i pg hp
  · exact hk.slot i pg hp
  · rw [hc] at hdirty
    rw [diskPage_congr _ (hd _ (hk.mem i pg hp))]
    exact hk.clean i pg hp hdirty

/-- What storing the page `pg` at `off` changes. -/
structure Stored (ps : List UInt64) (off : UInt64) (pg : PagedPage) (fs fs' : Fs) : Prop where
  sb : fs'.sb = fs.sb
  pdir : fs'.pdir = fs.pdir
  page : pageAt fs' off = pg
  pages : ∀ o ∈ ps, o ≠ off → pageAt fs' o = pageAt fs o
  data : ∀ i, ¬InBlock off i → fs'.img.data i = fs.img.data i
  size : fs.img.size ≤ fs'.img.size

theorem pageWriteback_apply (he : Healthy env) (hk : PagesOk fs ps) (ho : off ∈ ps)
    (pg : PagedPage) : ∃ fs', pageWriteback env pg off fs = some ((), fs') ∧ PagesOk fs' ps ∧
      Stored ps off pg fs fs' := by
  have hu := hk.usable off ho
  have hb := hu.bound
  by_cases hh : holds fs off = true
  · have hoff : (fs.pcache (pcIndex off)).pageOff = off := by
      simp only [holds, Bool.and_eq_true, beq_iff_eq] at hh
      exact hh.1
    refine ⟨{ fs with
        pcache := fun i ↦ if i = pcIndex off then ⟨off, some pg, true⟩ else fs.pcache i }, ?_, ?_, rfl, rfl, ?_, fun o _ hne ↦ ?_, fun _ _ ↦ rfl, le_rfl⟩
    · simp only [pageWriteback, bind_apply, get_apply, Option.bind_some, hh, ↓reduceIte, setPcache,
        modify_apply]
    · refine ⟨hk.usable, fun i p hp ↦ ?_, fun i p hp ↦ ?_, fun i p hp hd ↦ ?_⟩ <;>
        by_cases hi : i = pcIndex off <;> simp only [hi, ↓reduceIte] at hp ⊢
      · exact ho
      · exact hk.mem i p hp
      · exact hk.slot i p hp
      · simp [hi] at hd
      · simp only [hi, ↓reduceIte] at hd
        exact hk.clean i p hp hd
    · simp [pageAt]
    · by_cases hi : pcIndex o = pcIndex off
      · rw [pageAt_of_absent, pageAt_of_absent]
        · intro p _
          rw [hi, hoff]
          exact hne.symm
        · intro p _
          simp only [hi, ↓reduceIte]
          exact hne.symm
      · simp [pageAt, hi]
  · refine ⟨{ fs with img := fs.img.write pg.encode pageSize off.toNat, clock := fs.clock + 1 },
      ?_, ?_, rfl, rfl, ?_, fun o ho' hne ↦ ?_, fun i hi ↦ write_outBlock _ _ le_rfl hi,
      Image.write_size _ _ _ _⟩
    · simp only [pageWriteback, bind_apply, get_apply, Option.bind_some, hh, ↓reduceIte,
        discard_apply, Bool.false_eq_true]
      rw [he.osPwrite_apply _ _ _ (by omega), Option.bind_some]
    · refine ⟨hk.usable, hk.mem, hk.slot, fun i p hp hd ↦ ?_⟩
      rw [← hk.clean i p hp hd]
      refine diskPage_congr _ fun j hj ↦ write_outBlock _ _ le_rfl ?_
      refine (hk.usable _ (hk.mem i p hp)).disjoint hu (fun heq ↦ hh ?_) hj
      have hi := hk.slot i p hp
      have hsome : (fs.pcache i).page = some p := hp
      rw [heq] at hi
      simp [holds, hi, heq, hsome]
    · rw [pageAt_of_absent, diskPage_write]
      intro p hp heq
      have hp' : (fs.pcache (pcIndex off)).page = some p := hp
      have heq' : (fs.pcache (pcIndex off)).pageOff = off := heq
      exact hh (by simp [holds, hp', heq'])
    · unfold pageAt
      rw [diskPage_congr fs.img]
      intro i hi
      exact write_outBlock _ _ le_rfl ((hk.usable o ho').disjoint hu hne hi)

theorem newPage_apply (he : Healthy env) (hk : PagesOk fs ps) (hu : Usable off) (ho : off ∉ ps)
    (pg : PagedPage) : ∃ fs',
      (do
        let ok ← osPwrite env pg.encode pageSize off
        if ok then do
          pageCacheInvalidate env off
          return true
        else return false) fs = some (true, fs') ∧
      PagesOk fs' (ps ++ [off]) ∧ Stored ps off pg fs fs' := by
  have hb := hu.bound
  have hnot (i : ℕ) (p : PagedPage) (hp : (fs.pcache i).page = some p) :
      (fs.pcache i).pageOff ≠ off := fun heq ↦ ho (heq ▸ hk.mem i p hp)
  refine ⟨{ fs with img := fs.img.write pg.encode pageSize off.toNat, clock := fs.clock + 1 },
    ?_, ?_, rfl, rfl, ?_, fun o ho' hne ↦ ?_, fun i hi ↦ write_outBlock _ _ le_rfl hi,
    Image.write_size _ _ _ _⟩
  · rw [bind_apply, he.osPwrite_apply _ _ _ (by omega), Option.bind_some, if_pos rfl, bind_apply]
    simp only [pageCacheInvalidate, bind_apply, get_apply, Option.bind_some]
    cases hp : (fs.pcache (pcIndex off)).page with
    | none => rfl
    | some p =>
      simp only [hnot _ p hp, ↓reduceIte]
      rfl
  · refine ⟨fun o ho' ↦ ?_, fun i p hp ↦ List.mem_append_left _ (hk.mem i p hp), hk.slot,
      fun i p hp hd ↦ ?_⟩
    · rcases List.mem_append.mp ho' with h | h
      · exact hk.usable o h
      · rw [List.mem_singleton.mp h]
        exact hu
    · rw [← hk.clean i p hp hd]
      refine diskPage_congr _ fun j hj ↦ write_outBlock _ _ le_rfl ?_
      exact (hk.usable _ (hk.mem i p hp)).disjoint hu (hnot i p hp) hj
  · rw [pageAt_of_absent, diskPage_write]
    exact fun p hp ↦ hnot _ p hp
  · unfold pageAt
    rw [diskPage_congr fs.img]
    intro i hi
    exact write_outBlock _ _ le_rfl ((hk.usable o ho').disjoint hu hne hi)

end store

end Xxfs.PageStore
