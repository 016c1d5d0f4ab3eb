import Fip.Booter.Load

/-!
# The window onto the physical memory

`mseek` maps an 8 KB page of the physical memory into the window, and `mwrite`
maps the next page when it has filled the window.  Together they copy bytes to
an address that wraps at 64 KB.
-/

namespace Fip.Booter

namespace State

/-- The next byte goes to this address of the physical memory. -/
structure Window (s : State) (addr : ℕ) : Prop where
  next : s.paddr = addr % 65536
  size : s.mleft ≤ 0x2000
  finish : s.maddr + s.mleft = 0x4000
  page : s.mmu < 8
  mapped : s.phys % 65536 = s.paddr

/-- The open file, which `mseek` and `mwrite` leave alone. -/
def reader (s : State) : Inode × Block × ℕ × Block × ℕ × ℕ × ℕ :=
  (s.i, s.idir, s.epos, s.dbuf, s.left, s.bpos, s.spos)

theorem window_mseek (s : State) {addr : ℕ} (haddr : addr < 65536) :
    (s.mseek addr).Window addr := by
  have hoff : addr &&& 0x1fff = addr % 0x2000 := Nat.and_two_pow_sub_one_eq_mod addr 13
  have hpage : addr >>> 13 = addr / 0x2000 := Nat.shiftRight_eq_div_pow addr 13
  constructor
  · change addr = addr % 65536
    omega
  · change 0x2000 - (addr &&& 0x1fff) ≤ 0x2000
    omega
  · change 0x2000 + (addr &&& 0x1fff) + (0x2000 - (addr &&& 0x1fff)) = 0x4000
    rw [hoff]
    omega
  · change addr >>> 13 < 8
    rw [hpage]
    omega
  · change (addr >>> 13 * 0x2000 + (0x2000 + (addr &&& 0x1fff) - 0x2000)) % 65536 = addr
    rw [hoff, hpage]
    omega

/-- Mapping the page of the next byte keeps the address. -/
theorem Window.mseek {s : State} {addr : ℕ} (hwindow : s.Window addr) :
    (s.mseek s.paddr).Window addr := by
  have hlt : s.paddr < 65536 := by
    rw [hwindow.next]
    exact Nat.mod_lt _ (by decide)
  have hseek := s.window_mseek hlt
  refine ⟨?_, hseek.size, hseek.finish, hseek.page, hseek.mapped⟩
  rw [hseek.next, hwindow.next, Nat.mod_mod]

theorem Window.put {s : State} {addr : ℕ} (hwindow : s.Window addr) {bytes : List UInt8}
    (hfits : bytes.length ≤ s.mleft) :
    (s.put bytes bytes.length).Window (addr + bytes.length) ∧
      (s.put bytes bytes.length).mem = Memory.wrapWrite 65536 s.mem addr bytes := by
  obtain ⟨hnext, hsize, hfinish, hpage, hmapped⟩ := hwindow
  have hphys : s.phys = s.mmu * 0x2000 + (s.maddr - 0x2000) := rfl
  have hput : (s.put bytes bytes.length).phys = s.phys + bytes.length := by
    change s.mmu * 0x2000 + (s.maddr + bytes.length - 0x2000) = _
    omega
  constructor
  · constructor
    · change (s.paddr + bytes.length) % 65536 = (addr + bytes.length) % 65536
      omega
    · change s.mleft - bytes.length ≤ 0x2000
      omega
    · change s.maddr + bytes.length + (s.mleft - bytes.length) = 0x4000
      omega
    · exact hpage
    · rw [hput]
      change (s.phys + bytes.length) % 65536 = (s.paddr + bytes.length) % 65536
      omega
  · have hinside : s.phys + bytes.length ≤ 65536 := by omega
    have haddr : s.phys % 65536 = addr % 65536 := hmapped.trans hnext
    calc (s.put bytes bytes.length).mem = Memory.write s.mem s.phys bytes := rfl
      _ = Memory.wrapWrite 65536 s.mem s.phys bytes :=
          Memory.write_eq_wrapWrite hinside s.mem
      _ = Memory.wrapWrite 65536 s.mem addr bytes := by
          rw [← Memory.wrapWrite_mod, haddr, Memory.wrapWrite_mod]

/-- What writing bytes at an address comes to. -/
structure Written (s t : State) (addr : ℕ) (bytes : List UInt8) : Prop where
  window : t.Window (addr + bytes.length)
  mem : t.mem = Memory.wrapWrite 65536 s.mem addr bytes
  reader : t.reader = s.reader

theorem Written.append {s t u : State} {addr : ℕ} {bytes more : List UInt8}
    (hfirst : Written s t addr bytes) (hsecond : Written t u (addr + bytes.length) more) :
    Written s u addr (bytes ++ more) := by
  constructor
  · rw [List.length_append, ← Nat.add_assoc]
    exact hsecond.window
  · rw [hsecond.mem, hfirst.mem, Memory.wrapWrite_append]
  · exact hsecond.reader.trans hfirst.reader

theorem Window.written {s : State} {addr : ℕ} (hwindow : s.Window addr)
    {bytes : List UInt8} (hfits : bytes.length ≤ s.mleft) :
    Written s (s.put bytes bytes.length) addr bytes :=
  ⟨(hwindow.put hfits).1, (hwindow.put hfits).2, rfl⟩

/-- The window that a round of `mwrite` writes through. -/
theorem Window.round {s : State} {addr : ℕ} (hwindow : s.Window addr) :
    ∃ t, (if s.mleft = 0 then s.mseek s.paddr else s) = t ∧ t.Window addr ∧
      t.mem = s.mem ∧ t.reader = s.reader ∧ t.mleft ≠ 0 := by
  by_cases hmleft : s.mleft = 0
  · have hoff : s.paddr &&& 0x1fff = s.paddr % 0x2000 :=
      Nat.and_two_pow_sub_one_eq_mod s.paddr 13
    have hroom : (s.mseek s.paddr).mleft ≠ 0 := by
      change 0x2000 - (s.paddr &&& 0x1fff) ≠ 0
      omega
    rw [if_pos hmleft]
    exact ⟨_, rfl, hwindow.mseek, rfl, rfl, hroom⟩
  · rw [if_neg hmleft]
    exact ⟨_, rfl, hwindow, rfl, rfl, hmleft⟩

theorem mwriteLoop_written {fuel : ℕ} {s : State} {addr : ℕ} {data : List UInt8}
    (hwindow : s.Window addr) (hfuel : data.length ≤ fuel) :
    Written s (mwriteLoop fuel s data) addr data := by
  induction fuel generalizing s addr data with
  | zero =>
      have hnil : data = [] := List.length_eq_zero_iff.mp (Nat.le_zero.mp hfuel)
      rw [hnil]
      exact ⟨hwindow, rfl, rfl⟩
  | succ fuel ih =>
      rw [mwriteLoop]
      by_cases hnil : data = []
      · rw [if_pos hnil, hnil]
        exact ⟨hwindow, rfl, rfl⟩
      · obtain ⟨t, ht, htwindow, htmem, htreader, hroom⟩ := hwindow.round
        have hpos := List.length_pos_iff.mpr hnil
        have hmax : (if t.mleft < data.length then t.mleft else data.length) =
            min t.mleft data.length := by
          split <;> omega
        rw [if_neg hnil, ht]
        dsimp only
        rw [hmax]
        generalize hk : min t.mleft data.length = k
        have hlength : (data.take k).length = k :=
          List.length_take_of_le (by omega)
        have hrest : (data.drop k).length ≤ fuel := by
          rw [List.length_drop]
          omega
        have hfits : (data.take k).length ≤ t.mleft := by omega
        have hpiece := htwindow.written hfits
        rw [hlength] at hpiece
        have hfirst : Written s (t.put (data.take k) k) addr (data.take k) := by
          refine ⟨hpiece.window, ?_, hpiece.reader.trans htreader⟩
          rw [hpiece.mem, htmem]
        have hwhole := hfirst.append (ih hfirst.window hrest)
        rw [List.take_append_drop] at hwhole
        exact hwhole

/-- `mwrite` copies the bytes to the address of the window. -/
theorem mwrite_written {s : State} {addr : ℕ} (hwindow : s.Window addr)
    (data : List UInt8) : Written s (s.mwrite data) addr data :=
  mwriteLoop_written hwindow (Nat.le_refl _)

end State

end Fip.Booter
