import Mathlib.Tactic.Abel
import RheeKernel.StringInstructions
import RheeKernel.WhileLoop

namespace RheeKernel.Strings

open StringOps

/-! ### `string.h`: the functions that only read -/

def strlen (c : Processor) (s : Addr) : BitVec 32 :=
  let c := { c with edi := s, eax := 0, ecx := 0xffffffff, df := false }
  let c := c.repneScasb
  ~~~c.ecx - 1

/-- The length of `ct`, left in `ecx` and `edx`, and the zero flag that `decl` sets. -/
def setLength (c : Processor) (ct : Addr) : Processor :=
  let c := { c with edi := ct }.repneScasb
  let ecx := ~~~c.ecx - 1
  { c with ecx := ecx, zf := decide (ecx = 0), edx := ecx }

/-- From label 1 of `strspn` (`again` is `je 1b`) and `strcspn` (`jne 1b`). -/
def spanTurn (ct : Addr) (again : Bool) (c : Processor) : Bool × Processor :=
  let c := c.lodsb.testAl
  if c.zf then (false, c)
  else
    let c := { c with edi := ct, ecx := c.edx }.repneScasb
    (c.zf == again, c)

def span (again : Bool) (c : Processor) (cs ct : Addr) (fuel : Nat) : Option (BitVec 32) :=
  let c := { c with eax := 0, ecx := 0xffffffff, esi := cs, df := false }
  (WhileLoop.run (fun c => some (spanTurn ct again c)) some fuel (setLength c ct)).map fun c => c.esi - 1 - cs

def strspn (c : Processor) (cs ct : Addr) (fuel : Nat) : Option (BitVec 32) := span true c cs ct fuel

def strcspn (c : Processor) (cs ct : Addr) (fuel : Nat) : Option (BitVec 32) := span false c cs ct fuel

/-- From label 1 of `strpbrk` up to label 3. -/
def strpbrkTurn (ct : Addr) (c : Processor) : Bool × Processor :=
  let c := c.lodsb.testAl
  if c.zf then (false, { c with esi := 0 })
  else
    let c := { c with edi := ct, ecx := c.edx }.repneScasb
    if c.zf then (false, { c with esi := c.esi - 1 }) else (true, c)

def strpbrk (c : Processor) (cs ct : Addr) (fuel : Nat) : Option Addr :=
  let c := { c with eax := 0, ecx := 0xffffffff, esi := cs, df := false }
  (WhileLoop.run (fun c => some (strpbrkTurn ct c)) some fuel (setLength c ct)).map fun c => c.esi

/-- From label 1 of `strchr` up to label 2. -/
def strchrTurn (ah : UInt8) (c : Processor) : Bool × Processor :=
  let c := c.lodsb
  let c := c.compare c.al ah
  if c.zf then (false, c)
  else
    let c := c.testAl
    if c.zf then (false, { c with esi := 1 }) else (true, c)

def strchr (c : Processor) (s : Addr) (ch : BitVec 32) (fuel : Nat) : Option Addr :=
  let c := { c with eax := ch, esi := s }
  (WhileLoop.run (fun d => some (strchrTurn c.al d)) some fuel c).map fun c => c.esi - 1

/-- From label 1 of `strrchr`, with its result so far. -/
def strrchrTurn (ah : UInt8) (d : Processor × Addr) : Bool × Processor × Addr :=
  let c := d.1.lodsb
  let c := c.compare c.al ah
  let res := if c.zf then c.esi - 1 else d.2
  let c := c.testAl
  (!c.zf, c, res)

def strrchr (c : Processor) (s : Addr) (ch : BitVec 32) (fuel : Nat) : Option Addr :=
  let c := { c with eax := ch, esi := s, df := false }
  (WhileLoop.run (fun d => some (strrchrTurn c.al d)) some fuel (c, 0)).map fun d => d.2

/-- From label 1 of `strstr` up to label 2. -/
def strstrTurn (ct : Addr) (c : Processor) : Bool × Processor :=
  let c := { c with edi := ct, eax := c.esi, ecx := c.edx }.repeCmpsb
  if c.zf then (false, c)
  else
    let c := { c with eax := c.esi, esi := c.eax + 1 }
    let c := c.compare (c.mem (c.eax - 1)) 0
    if c.zf then (false, { c with eax := 0 }) else (true, c)

def strstr (c : Processor) (cs ct : Addr) (fuel : Nat) : Option Addr :=
  let c := { c with eax := 0, ecx := 0xffffffff, esi := cs, df := false }
  (WhileLoop.run (fun c => some (strstrTurn ct c)) some fuel (setLength c ct)).map fun c => c.eax

def memchr (c : Processor) (cs : Addr) (ch : UInt8) (count : BitVec 32) : Addr :=
  if count = 0 then 0
  else
    let c := { c.setAl ch with edi := cs, ecx := count, df := false }.repneScasb
    if c.zf then c.edi - 1 else 0

variable {c d : Processor} {m : Addr → UInt8} {s cs ct : Addr} {b : UInt8} {l set : List UInt8} {fuel : Nat}

/-! ### One step -/

section Turns

variable {σ : Type*} {turn : σ → Bool × σ} {x : σ}

theorem turn_go (go : (turn x).1 = true) : WhileLoop.run (fun x => some (turn x)) some (fuel + 1) x =
    WhileLoop.run (fun x => some (turn x)) some fuel (turn x).2 := by
  have test : some (turn x) = some (true, (turn x).2) := congrArg some (Prod.ext go rfl)
  exact WhileLoop.run_turn test rfl

theorem turn_stop (stop : (turn x).1 = false) : WhileLoop.run (fun x => some (turn x)) some (fuel + 1) x = some (turn x).2 :=
  WhileLoop.run_last (congrArg some (Prod.ext stop rfl))

end Turns

@[simp] theorem lodsb_al : c.lodsb.al = c.mem c.esi := al_setAl

theorem lodsb_esi (forward : c.df = false) : c.lodsb.esi = c.esi + 1 := by
  unfold Processor.lodsb
  rw [stride_forward forward]

theorem lodsb_testAl (forward : c.df = false) : ∃ eax cf less, c.lodsb.testAl =
    { c with eax := eax, esi := c.esi + 1, zf := decide (c.mem c.esi = 0), cf := cf, less := less } ∧ c.lodsb.testAl.al = c.mem c.esi := by
  refine ⟨c.lodsb.eax, false, decide (c.lodsb.al.toInt8 < 0), ?_, lodsb_al⟩
  unfold Processor.testAl
  rw [lodsb_al]
  unfold Processor.lodsb Processor.setAl
  rw [stride_forward forward]

theorem count_toNat {n : Nat} (small : n < 2 ^ 32) : (BitVec.ofNat 32 n).toNat = n := by
  rw [BitVec.toNat_ofNat]
  exact Nat.mod_eq_of_lt small

theorem not_sub_one (n : Nat) : ~~~((0xffffffff : BitVec 32) - BitVec.ofNat 32 (n + 1)) - 1 = BitVec.ofNat 32 n := by
  have flip (x : BitVec 32) : ~~~x = -x - 1 := eq_sub_of_add_eq (BitVec.neg_eq_not_add x).symm
  have full : (0xffffffff : BitVec 32) = -1 := rfl
  have next : BitVec.ofNat 32 (n + 1) = BitVec.ofNat 32 n + 1 := BitVec.ofNat_add ..
  rw [flip, full, next]
  abel

/-- The length of a string, as `repne scasb`, `notl` and `decl` compute it. -/
theorem strlen_scan (forward : c.df = false) (zero : c.al = 0) (full : c.ecx = 0xffffffff) (text : Text c.mem c.edi l)
    (room : l.length + 1 < 2 ^ 32) : ~~~c.repneScasb.ecx - 1 = BitVec.ofNat 32 l.length ∧
      c.repneScasb = { c with edi := c.edi + BitVec.ofNat 32 (l.length + 1), ecx := c.repneScasb.ecx, zf := true, cf := false, less := false } := by
  have scan : c.repneScasb = { c with
      edi := c.edi + BitVec.ofNat 32 (l.length + 1), ecx := c.ecx - BitVec.ofNat 32 (l.length + 1), zf := true, cf := false, less := false } := by
    unfold Processor.repneScasb
    refine repne_scasb_found forward ?_ ?_ ?_
    · rw [zero]
      exact text.bytes
    · rw [zero]
      exact text.nonzero
    · rw [full]
      show l.length < 4294967295
      omega
  refine ⟨?_, ?_⟩
  · rw [scan, full]
    exact not_sub_one l.length
  · rw [scan]

theorem strlen_eq (text : Text c.mem s l) (room : l.length + 1 < 2 ^ 32) : strlen c s = BitVec.ofNat 32 l.length :=
  (strlen_scan (c := { c with edi := s, eax := 0, ecx := 0xffffffff, df := false }) rfl (al_zero rfl) rfl text room).1

/-- `setLength` has found the set, and nothing has changed it since. -/
structure SetReady (c : Processor) (ct : Addr) (set : List UInt8) : Prop where
  forward : c.df = false
  text : Text c.mem ct set
  length : c.edx = BitVec.ofNat 32 set.length
  room : set.length + 1 < 2 ^ 32

theorem setLength_spec (forward : c.df = false) (zero : c.al = 0) (full : c.ecx = 0xffffffff) (text : Text c.mem ct set)
    (room : set.length + 1 < 2 ^ 32) : SetReady (setLength c ct) ct set ∧ (setLength c ct).zf = set.isEmpty ∧ (setLength c ct).esi = c.esi ∧
      (setLength c ct).mem = c.mem := by
  obtain ⟨length, scan⟩ := strlen_scan (c := { c with edi := ct }) forward zero full text room
  unfold setLength
  dsimp only
  rw [length, scan]
  refine ⟨⟨forward, text, rfl, room⟩, ?_, rfl, rfl⟩
  cases set with
  | nil => rfl
  | cons b set =>
    refine decide_eq_false fun none => ?_
    have large := congrArg BitVec.toNat none
    rw [BitVec.toNat_ofNat, Nat.mod_eq_of_lt (by omega)] at large
    exact absurd large (Nat.succ_ne_zero _)

theorem SetReady.count (h : SetReady c ct set) : c.edx.toNat = set.length := by
  have room := h.room
  rw [h.length]
  exact count_toNat (by omega)

/-- The scan for a character among those of the set. -/
theorem SetReady.scan (h : SetReady c ct set) (flag : c.zf = false) : ∃ edi ecx cf less,
    { c with edi := ct, ecx := c.edx }.repneScasb = { c with edi := edi, ecx := ecx, zf := decide (c.al ∈ set), cf := cf, less := less } := by
  unfold Processor.repneScasb
  dsimp only
  rw [h.count]
  by_cases member : c.al ∈ set
  · obtain ⟨before, after, rfl, fresh⟩ := List.eq_append_cons_of_mem member
    have bytes := (Bytes.append_iff.mp h.text.bytes).1
    rw [List.append_cons] at bytes
    have found := repne_scasb_found (c := { c with edi := ct, ecx := c.edx }) (n := (before ++ c.al :: after).length) h.forward
      (Bytes.append_iff.mp bytes).1 fresh (by rw [List.length_append, List.length_cons]; omega)
    rw [found, decide_eq_true member]
    exact ⟨_, _, _, _, rfl⟩
  · obtain ⟨cf, less, scan⟩ := repne_scasb_missing (c := { c with edi := ct, ecx := c.edx }) h.forward (Bytes.append_iff.mp h.text.bytes).1 member
    simp only [flag, Bool.false_and] at scan ⊢
    rw [scan, decide_eq_false member]
    exact ⟨_, _, cf, less, rfl⟩

/-! ### Spans -/

theorem SetReady.of_eq (h : SetReady c ct set) (df : d.df = c.df) (mem : d.mem = c.mem) (edx : d.edx = c.edx) : SetReady d ct set :=
  ⟨df.trans h.forward, mem ▸ h.text, edx.trans h.length, h.room⟩

theorem spanTurn_end (again : Bool) (h : SetReady c ct set) (zero : c.mem c.esi = 0) :
    (spanTurn ct again c).1 = false ∧ (spanTurn ct again c).2.esi = c.esi + 1 ∧ (spanTurn ct again c).2.mem = c.mem ∧
      SetReady (spanTurn ct again c).2 ct set ∧ (spanTurn ct again c).2.al = 0 ∧ (spanTurn ct again c).2.zf = true := by
  obtain ⟨eax, cf, less, loaded, al⟩ := lodsb_testAl h.forward
  rw [decide_eq_true zero] at loaded
  rw [loaded, zero] at al
  unfold spanTurn
  dsimp only
  rw [loaded]
  exact ⟨rfl, rfl, rfl, h.of_eq rfl rfl rfl, al, rfl⟩

theorem spanTurn_next (again : Bool) (h : SetReady c ct set) (here : c.mem c.esi = b) (nonzero : b ≠ 0) :
    (spanTurn ct again c).1 = (decide (b ∈ set) == again) ∧ (spanTurn ct again c).2.esi = c.esi + 1 ∧ (spanTurn ct again c).2.mem = c.mem ∧
      SetReady (spanTurn ct again c).2 ct set ∧ (spanTurn ct again c).2.al = b ∧ (spanTurn ct again c).2.zf = decide (b ∈ set) := by
  obtain ⟨eax, cf, less, loaded, al⟩ := lodsb_testAl h.forward
  rw [decide_eq_false (here ▸ nonzero)] at loaded
  rw [loaded, here] at al
  have ready : SetReady c.lodsb.testAl ct set := h.of_eq (by rw [loaded]) (by rw [loaded]) (by rw [loaded])
  obtain ⟨edi, ecx, cf', less', scan⟩ := ready.scan (by rw [loaded])
  unfold spanTurn
  dsimp only
  rw [scan, loaded, al]
  exact ⟨rfl, rfl, rfl, h.of_eq rfl rfl rfl, al, rfl⟩

/-- How far the loop of `strspn` and `strcspn` goes, and what it stops at. -/
theorem span_run (again : Bool) (h : SetReady c ct set) (text : Text c.mem c.esi l) (enough : l.length < fuel) :
    ∃ d, WhileLoop.run (fun c => some (spanTurn ct again c)) some fuel c = some d ∧
      d.esi = c.esi + BitVec.ofNat 32 ((l.takeWhile fun b => decide (b ∈ set) == again).length + 1) ∧ d.mem = c.mem ∧ SetReady d ct set ∧
        d.al = (l.dropWhile fun b => decide (b ∈ set) == again).headD 0 ∧
          d.zf = ((l.dropWhile fun b => decide (b ∈ set) == again).isEmpty || !again) := by
  induction l generalizing c fuel with
  | nil =>
    obtain ⟨fuel, rfl⟩ : ∃ k, fuel = k + 1 := ⟨fuel - 1, by omega⟩
    obtain ⟨stop, esi, mem, ready, al, zf⟩ := spanTurn_end again h text
    exact ⟨_, turn_stop stop, esi, mem, ready, al, zf⟩
  | cons b l ih =>
    obtain ⟨fuel, rfl⟩ : ∃ k, fuel = k + 1 := ⟨fuel - 1, by omega⟩
    obtain ⟨here, nonzero, rest⟩ := text
    obtain ⟨turn, esi, mem, ready, al, zf⟩ := spanTurn_next again h here nonzero
    by_cases go : (decide (b ∈ set) == again) = true
    · rw [← esi, ← mem] at rest
      obtain ⟨d, run, stopped, mem', ends⟩ := ih ready rest (Nat.lt_of_succ_lt_succ enough)
      rw [List.dropWhile_cons_of_pos (p := fun b => decide (b ∈ set) == again) go]
      refine ⟨d, (turn_go (turn.trans go)).trans run, ?_, mem'.trans mem, ends⟩
      rw [stopped, esi, add_ofNat_succ, List.takeWhile_cons_of_pos (p := fun b => decide (b ∈ set) == again) go, List.length_cons]
    · rw [List.dropWhile_cons_of_neg (p := fun b => decide (b ∈ set) == again) go]
      refine ⟨_, turn_stop (turn.trans (Bool.eq_false_iff.mpr go)), ?_, mem, ready, al, zf.trans ?_⟩
      · rw [esi, List.takeWhile_cons_of_neg (p := fun b => decide (b ∈ set) == again) go]
        rfl
      · rw [List.isEmpty_cons, Bool.false_or]
        cases again with
        | true => simpa using go
        | false => simpa using go

theorem span_eq (again : Bool) (text : Text c.mem cs l) (chars : Text c.mem ct set) (room : set.length + 1 < 2 ^ 32) (enough : l.length < fuel) :
    span again c cs ct fuel = some (BitVec.ofNat 32 (l.takeWhile fun b => decide (b ∈ set) == again).length) := by
  obtain ⟨ready, -, esi, mem⟩ := setLength_spec (c := { c with eax := 0, ecx := 0xffffffff, esi := cs, df := false }) rfl (al_zero rfl) rfl chars room
  obtain ⟨d, run, stopped, -⟩ := span_run again ready (by rw [esi, mem]; exact text) enough
  unfold span
  dsimp only
  rw [run, Option.map_some, stopped, esi, BitVec.ofNat_add]
  congr 1
  abel

theorem strpbrkTurn_end (h : SetReady c ct set) (zero : c.mem c.esi = 0) :
    (strpbrkTurn ct c).1 = false ∧ (strpbrkTurn ct c).2.esi = 0 := by
  obtain ⟨eax, cf, less, loaded, -⟩ := lodsb_testAl h.forward
  unfold strpbrkTurn
  dsimp only
  rw [loaded, decide_eq_true zero]
  exact ⟨rfl, rfl⟩

theorem strpbrkTurn_next (h : SetReady c ct set) (here : c.mem c.esi = b) (nonzero : b ≠ 0) :
    (strpbrkTurn ct c).1 = !decide (b ∈ set) ∧ (strpbrkTurn ct c).2.esi = (if b ∈ set then c.esi else c.esi + 1) ∧
      (strpbrkTurn ct c).2.mem = c.mem ∧ SetReady (strpbrkTurn ct c).2 ct set := by
  obtain ⟨eax, cf, less, loaded, al⟩ := lodsb_testAl h.forward
  rw [decide_eq_false (here ▸ nonzero)] at loaded
  rw [loaded, here] at al
  have ready : SetReady c.lodsb.testAl ct set := h.of_eq (by rw [loaded]) (by rw [loaded]) (by rw [loaded])
  obtain ⟨edi, ecx, cf', less', scan⟩ := ready.scan (by rw [loaded])
  unfold strpbrkTurn
  dsimp only
  rw [scan, loaded, al]
  by_cases member : b ∈ set
  · rw [decide_eq_true member, if_pos member]
    exact ⟨rfl, BitVec.add_sub_cancel c.esi 1, rfl, h.of_eq rfl rfl rfl⟩
  · rw [decide_eq_false member, if_neg member]
    exact ⟨rfl, rfl, rfl, h.of_eq rfl rfl rfl⟩

theorem strpbrk_run (h : SetReady c ct set) (text : Text c.mem c.esi l) (enough : l.length < fuel) :
    ∃ d, WhileLoop.run (fun c => some (strpbrkTurn ct c)) some fuel c = some d ∧
      d.esi = if l.any fun b => decide (b ∈ set) then c.esi + BitVec.ofNat 32 (l.takeWhile fun b => b ∉ set).length else 0 := by
  induction l generalizing c fuel with
  | nil =>
    obtain ⟨fuel, rfl⟩ : ∃ k, fuel = k + 1 := ⟨fuel - 1, by omega⟩
    obtain ⟨stop, esi⟩ := strpbrkTurn_end h text
    refine ⟨_, turn_stop stop, ?_⟩
    rw [esi, List.any_nil, if_neg Bool.false_ne_true]
  | cons b l ih =>
    obtain ⟨fuel, rfl⟩ : ∃ k, fuel = k + 1 := ⟨fuel - 1, by omega⟩
    obtain ⟨here, nonzero, rest⟩ := text
    obtain ⟨turn, esi, mem, ready⟩ := strpbrkTurn_next h here nonzero
    by_cases member : b ∈ set
    · rw [decide_eq_true member] at turn
      rw [if_pos member] at esi
      refine ⟨_, turn_stop turn, ?_⟩
      rw [esi, List.any_cons, decide_eq_true member, Bool.true_or, if_pos rfl, List.takeWhile_cons_of_neg (by simpa using member)]
      exact (BitVec.add_zero _).symm
    · rw [decide_eq_false member] at turn
      rw [if_neg member] at esi
      rw [← esi, ← mem] at rest
      obtain ⟨d, run, stopped⟩ := ih ready rest (Nat.lt_of_succ_lt_succ enough)
      refine ⟨d, (turn_go turn).trans run, ?_⟩
      rw [stopped, esi, add_ofNat_succ, List.any_cons, decide_eq_false member, Bool.false_or, List.takeWhile_cons_of_pos (by simpa using member),
        List.length_cons]

theorem strpbrk_eq (text : Text c.mem cs l) (chars : Text c.mem ct set) (room : set.length + 1 < 2 ^ 32) (enough : l.length < fuel) :
    strpbrk c cs ct fuel = some (if l.any fun b => decide (b ∈ set) then cs + BitVec.ofNat 32 (l.takeWhile fun b => b ∉ set).length else 0) := by
  obtain ⟨ready, -, esi, mem⟩ := setLength_spec (c := { c with eax := 0, ecx := 0xffffffff, esi := cs, df := false }) rfl (al_zero rfl) rfl chars room
  obtain ⟨d, run, stopped⟩ := strpbrk_run ready (by rw [esi, mem]; exact text) enough
  unfold strpbrk
  dsimp only
  rw [run, Option.map_some, stopped, esi]

/-! ### One character -/

theorem lodsb_compare {ah : UInt8} : (c.lodsb.compare c.lodsb.al ah).zf = decide (c.mem c.esi = ah) := by
  rw [lodsb_al]
  rfl

theorem lodsb_test {ah : UInt8} : (c.lodsb.compare c.lodsb.al ah).testAl.zf = decide (c.mem c.esi = 0) := by
  unfold Processor.testAl
  exact congrArg (fun b => decide (b = 0)) lodsb_al

theorem strchrTurn_spec (ah : UInt8) (forward : c.df = false) : (strchrTurn ah c).1 = decide (c.mem c.esi ≠ ah ∧ c.mem c.esi ≠ 0) ∧
    (strchrTurn ah c).2.esi = (if c.mem c.esi ≠ ah ∧ c.mem c.esi = 0 then 1 else c.esi + 1) ∧ (strchrTurn ah c).2.mem = c.mem ∧
      (strchrTurn ah c).2.df = false := by
  unfold strchrTurn
  dsimp only
  by_cases found : c.mem c.esi = ah
  · rw [if_pos (lodsb_compare.trans (decide_eq_true found)), decide_eq_false fun both => both.1 found, if_neg fun both => both.1 found]
    exact ⟨rfl, lodsb_esi forward, rfl, forward⟩
  rw [if_neg (by rw [lodsb_compare]; simpa using found)]
  by_cases zero : c.mem c.esi = 0
  · rw [if_pos (lodsb_test.trans (decide_eq_true zero)), decide_eq_false fun both => both.2 zero, if_pos ⟨found, zero⟩]
    exact ⟨rfl, rfl, rfl, forward⟩
  · rw [if_neg (by rw [lodsb_test]; simpa using zero), decide_eq_true (And.intro found zero), if_neg fun both => zero both.2]
    exact ⟨rfl, lodsb_esi forward, rfl, forward⟩

theorem strchr_run (ah : UInt8) (forward : c.df = false) (text : Text c.mem c.esi l) (enough : l.length < fuel) :
    ∃ d, WhileLoop.run (fun c => some (strchrTurn ah c)) some fuel c = some d ∧
      d.esi - 1 = if ah ∈ l ++ [0] then c.esi + BitVec.ofNat 32 ((l ++ [0]).idxOf ah) else 0 := by
  have back : c.esi + 1 - 1 = c.esi + BitVec.ofNat 32 0 := (BitVec.add_sub_cancel c.esi 1).trans (BitVec.add_zero _).symm
  induction l generalizing c fuel with
  | nil =>
    obtain ⟨fuel, rfl⟩ : ∃ k, fuel = k + 1 := ⟨fuel - 1, by omega⟩
    obtain ⟨turn, esi, -, -⟩ := strchrTurn_spec ah forward
    have zero : c.mem c.esi = 0 := text
    rw [decide_eq_false fun both => both.2 zero] at turn
    refine ⟨_, turn_stop turn, ?_⟩
    rw [esi, List.nil_append]
    by_cases found : ah = 0
    · rw [if_neg fun both => both.1 (zero.trans found.symm), if_pos (List.mem_singleton.mpr found), found, back]
      rfl
    · rw [if_pos ⟨fun same => found (same.symm.trans zero), zero⟩, if_neg fun member => found (List.mem_singleton.mp member)]
      rfl
  | cons b l ih =>
    obtain ⟨fuel, rfl⟩ : ∃ k, fuel = k + 1 := ⟨fuel - 1, by omega⟩
    obtain ⟨here, nonzero, rest⟩ := text
    obtain ⟨turn, esi, mem, df⟩ := strchrTurn_spec ah forward
    rw [here] at turn esi
    rw [if_neg fun both => nonzero both.2] at esi
    by_cases found : b = ah
    · rw [decide_eq_false fun both => both.1 found] at turn
      refine ⟨_, turn_stop turn, ?_⟩
      rw [esi, back, List.cons_append, if_pos (List.mem_cons.mpr (Or.inl found.symm)), found, List.idxOf_cons_self]
    · rw [decide_eq_true (And.intro found nonzero)] at turn
      rw [← esi, ← mem] at rest
      obtain ⟨d, run, stopped⟩ := ih df rest (Nat.lt_of_succ_lt_succ enough) ((BitVec.add_sub_cancel _ 1).trans (BitVec.add_zero _).symm)
      refine ⟨d, (turn_go turn).trans run, ?_⟩
      rw [stopped, esi, add_ofNat_succ, List.cons_append, List.idxOf_cons_ne _ found]
      have member : ah ∈ b :: (l ++ [0]) ↔ ah ∈ l ++ [0] := List.mem_cons.trans (or_iff_right fun same => found same.symm)
      simp only [member]

/-- `strchr` takes the direction flag as it finds it. -/
theorem strchr_eq {ch : BitVec 32} (forward : c.df = false) (text : Text c.mem s l) (enough : l.length < fuel) :
    strchr c s ch fuel = some (if UInt8.ofBitVec (ch.setWidth 8) ∈ l ++ [0] then
      s + BitVec.ofNat 32 ((l ++ [0]).idxOf (UInt8.ofBitVec (ch.setWidth 8))) else 0) := by
  obtain ⟨d, run, stopped⟩ := strchr_run (c := { c with eax := ch, esi := s }) (UInt8.ofBitVec (ch.setWidth 8)) forward text enough
  unfold strchr
  dsimp only
  rw [← stopped]
  exact congrArg (Option.map _) run

theorem strrchrTurn_spec (ah : UInt8) (res : Addr) (forward : c.df = false) : (strrchrTurn ah (c, res)).1 = !decide (c.mem c.esi = 0) ∧
    (strrchrTurn ah (c, res)).2.1.esi = c.esi + 1 ∧ (strrchrTurn ah (c, res)).2.1.mem = c.mem ∧ (strrchrTurn ah (c, res)).2.1.df = false ∧
      (strrchrTurn ah (c, res)).2.2 = if c.mem c.esi = ah then c.esi else res := by
  unfold strrchrTurn
  dsimp only
  rw [lodsb_compare, lodsb_test]
  refine ⟨rfl, lodsb_esi forward, rfl, forward, ?_⟩
  by_cases found : c.mem c.esi = ah
  · rw [if_pos (decide_eq_true found), if_pos found]
    exact (congrArg (· - 1) (lodsb_esi forward)).trans (BitVec.add_sub_cancel c.esi 1)
  · rw [if_neg (by simpa using found), if_neg found]

theorem strrchr_run (ah : UInt8) (res : Addr) (forward : c.df = false) (text : Text c.mem c.esi l) (enough : l.length < fuel) :
    ∃ d, WhileLoop.run (fun d => some (strrchrTurn ah d)) some fuel (c, res) = some d ∧ (ah ∉ l ++ [0] → d.2 = res) ∧
      ∀ front back, l ++ [0] = front ++ ah :: back → ah ∉ back → d.2 = c.esi + BitVec.ofNat 32 front.length := by
  induction l generalizing c res fuel with
  | nil =>
    obtain ⟨fuel, rfl⟩ : ∃ k, fuel = k + 1 := ⟨fuel - 1, by omega⟩
    obtain ⟨turn, -, -, -, result⟩ := strrchrTurn_spec ah res forward
    have zero : c.mem c.esi = 0 := text
    rw [zero] at turn result
    refine ⟨_, turn_stop turn, fun absent => ?_, fun front back parts last => ?_⟩
    · rw [result, if_neg fun same => absent (List.mem_singleton.mpr same.symm)]
    · obtain ⟨rfl, same, rfl⟩ : front = [] ∧ ah = 0 ∧ back = [] := by
        cases front with
        | nil =>
          obtain ⟨first, none⟩ := List.cons.inj parts
          exact ⟨rfl, first.symm, none.symm⟩
        | cons b front => exact absurd (List.cons.inj parts).2 (by simp)
      rw [result, if_pos same.symm]
      exact (BitVec.add_zero _).symm
  | cons b l ih =>
    obtain ⟨fuel, rfl⟩ : ∃ k, fuel = k + 1 := ⟨fuel - 1, by omega⟩
    obtain ⟨here, nonzero, rest⟩ := text
    obtain ⟨turn, esi, mem, df, result⟩ := strrchrTurn_spec ah res forward
    rw [here, decide_eq_false nonzero] at turn
    rw [here] at result
    rw [← esi, ← mem] at rest
    obtain ⟨d, run, absent, last⟩ := ih (strrchrTurn ah (c, res)).2.2 df rest (Nat.lt_of_succ_lt_succ enough)
    refine ⟨d, (turn_go turn).trans run, fun none => ?_, fun front back parts fresh => ?_⟩
    · obtain ⟨other, later⟩ := not_or.mp (List.mem_cons.not.mp none)
      rw [absent later, result, if_neg fun same => other same.symm]
    · cases front with
      | nil =>
        obtain ⟨first, rfl⟩ := List.cons.inj parts
        rw [absent fresh, result, if_pos first]
        exact (BitVec.add_zero _).symm
      | cons x front =>
        obtain ⟨-, parts⟩ := List.cons.inj parts
        rw [last front back parts fresh, esi, add_ofNat_succ]
        rfl

theorem strrchr_eq {ch : BitVec 32} {ah : UInt8} (low : ah = UInt8.ofBitVec (ch.setWidth 8)) (text : Text c.mem s l) (enough : l.length < fuel) :
    ∃ res, strrchr c s ch fuel = some res ∧ (ah ∉ l ++ [0] → res = 0) ∧
      ∀ front back, l ++ [0] = front ++ ah :: back → ah ∉ back → res = s + BitVec.ofNat 32 front.length := by
  subst low
  obtain ⟨d, run, spec⟩ := strrchr_run (c := { c with eax := ch, esi := s, df := false }) (UInt8.ofBitVec (ch.setWidth 8)) 0 rfl text enough
  exact ⟨d.2, congrArg (Option.map _) run, spec⟩

theorem memchr_eq {ch : UInt8} {n : Nat} (bytes : Bytes c.mem cs l) (length : l.length = n) (small : n < 2 ^ 32) :
    memchr c cs ch (BitVec.ofNat 32 n) = if ch ∈ l then cs + BitVec.ofNat 32 (l.idxOf ch) else 0 := by
  subst length
  unfold memchr
  by_cases none : l.length = 0
  · rw [List.length_eq_zero_iff.mp none]
    rfl
  have nonzero : BitVec.ofNat 32 l.length ≠ 0 := by
    intro zero
    have large := congrArg BitVec.toNat zero
    rw [count_toNat small] at large
    exact none large
  rw [if_neg nonzero]
  unfold Processor.repneScasb
  dsimp only
  rw [count_toNat small]
  have al : Processor.al { c.setAl ch with edi := cs, ecx := BitVec.ofNat 32 l.length, df := false } = ch := al_setAl
  by_cases member : ch ∈ l
  · obtain ⟨before, after, parts, fresh⟩ := List.eq_append_cons_of_mem member
    have front : Bytes c.mem cs (before ++ [ch]) := by
      rw [parts, List.append_cons] at bytes
      exact (Bytes.append_iff.mp bytes).1
    have scan := repne_scasb_found (c := { c.setAl ch with edi := cs, ecx := BitVec.ofNat 32 l.length, df := false }) (n := l.length) rfl
      (by rw [al]; exact front) (by rw [al]; exact fresh) (by rw [parts, List.length_append, List.length_cons]; omega)
    rw [scan, if_pos rfl, if_pos member]
    have place : l.idxOf ch = before.length := by
      rw [parts, List.idxOf_append_of_notMem fresh, List.idxOf_cons_self, Nat.add_zero]
    rw [place, BitVec.ofNat_add]
    show cs + (BitVec.ofNat 32 before.length + 1) - 1 = _
    rw [← BitVec.add_assoc]
    exact BitVec.add_sub_cancel _ 1
  · obtain ⟨cf, less, scan⟩ := repne_scasb_missing (c := { c.setAl ch with edi := cs, ecx := BitVec.ofNat 32 l.length, df := false }) rfl bytes
      (by rw [al]; exact member)
    have filled : l.isEmpty = false := by
      cases l with
      | nil => exact absurd rfl none
      | cons b l => rfl
    rw [scan, if_neg member]
    simp [filled]

/-! ### Results -/

theorem spans_measure (text : Text c.mem cs l) (chars : Text c.mem ct set) (room : set.length + 1 < 2 ^ 32) (enough : l.length < fuel) :
    strspn c cs ct fuel = some (BitVec.ofNat 32 (l.takeWhile fun b => decide (b ∈ set)).length) ∧
      strcspn c cs ct fuel = some (BitVec.ofNat 32 (l.takeWhile fun b => decide (b ∉ set)).length) ∧
        strpbrk c cs ct fuel =
          some (if l.any fun b => decide (b ∈ set) then cs + BitVec.ofNat 32 (l.takeWhile fun b => decide (b ∉ set)).length else 0) := by
  refine ⟨(span_eq true text chars room enough).trans ?_, (span_eq false text chars room enough).trans ?_, strpbrk_eq text chars room enough⟩
  · simp only [beq_true]
  · simp only [beq_false, decide_not]

/-- The texts `ab` and `b`, at 8 and at 16. -/
def twoTexts : Processor where
  eax := 0
  ecx := 0
  edx := 0
  esi := 0
  edi := 0
  zf := false
  cf := false
  less := false
  df := false
  mem := fun a => if a = 8 then 97 else if a = 9 then 98 else if a = 16 then 98 else 0

theorem twoTexts_ab : Text twoTexts.mem 8 [97, 98] := ⟨rfl, by decide, rfl, by decide, rfl⟩

theorem twoTexts_b : Text twoTexts.mem 16 [98] := ⟨rfl, by decide, rfl⟩

theorem spans_measure_ab : strspn twoTexts 8 16 3 = some 0 ∧ strcspn twoTexts 8 16 3 = some 1 ∧ strpbrk twoTexts 8 16 3 = some 9 :=
  spans_measure twoTexts_ab twoTexts_b (by decide) (by decide)

/-- `strchr` and `strrchr` count the zero that ends the text as a character of it. -/
theorem characters_found {ch : BitVec 32} (forward : c.df = false) (text : Text c.mem s l) (room : l.length + 1 < 2 ^ 32)
    (enough : l.length < fuel) : strchr c s ch fuel = some (memchr c s (UInt8.ofBitVec (ch.setWidth 8)) (BitVec.ofNat 32 (l.length + 1))) ∧
      ∃ res, strrchr c s ch fuel = some res ∧ (UInt8.ofBitVec (ch.setWidth 8) ∉ l ++ [0] → res = 0) ∧ ∀ front back,
        l ++ [0] = front ++ UInt8.ofBitVec (ch.setWidth 8) :: back → UInt8.ofBitVec (ch.setWidth 8) ∉ back →
          res = s + BitVec.ofNat 32 front.length := by
  refine ⟨?_, strrchr_eq rfl text enough⟩
  rw [strchr_eq forward text enough, memchr_eq text.bytes (by rw [List.length_append, List.length_singleton]) room]

theorem characters_found_b : strchr twoTexts 8 98 3 = some (memchr twoTexts 8 98 3) ∧
    ∃ res, strrchr twoTexts 8 98 3 = some res ∧ (98 ∉ ([97, 98, 0] : List UInt8) → res = 0) ∧
      ∀ front back, ([97, 98, 0] : List UInt8) = front ++ 98 :: back → 98 ∉ back → res = 8 + BitVec.ofNat 32 front.length :=
  characters_found rfl twoTexts_ab (by decide) (by decide)


/-! ### Texts within texts -/

/-- A list that does not begin with the set: it ends within the set, or another element comes first. -/
theorem mismatch (other : ¬ set <+: l) : ∃ common y rest, set = common ++ y :: rest ∧ (l = common ∨ ∃ x rest', l = common ++ x :: rest' ∧ x ≠ y) := by
  induction l generalizing set with
  | nil =>
    cases set with
    | nil => exact absurd (List.nil_prefix) other
    | cons y set => exact ⟨[], y, set, rfl, Or.inl rfl⟩
  | cons b l ih =>
    cases set with
    | nil => exact absurd (List.nil_prefix) other
    | cons y set =>
      by_cases same : b = y
      · subst same
        obtain ⟨common, z, rest, parts, split⟩ := ih fun inside => other (List.cons_prefix_cons.mpr ⟨rfl, inside⟩)
        refine ⟨b :: common, z, rest, by rw [parts, List.cons_append], ?_⟩
        rcases split with rfl | ⟨x, rest', rfl, differ⟩
        · exact Or.inl rfl
        · exact Or.inr ⟨x, rest', rfl, differ⟩
      · exact ⟨[], y, set, rfl, Or.inr ⟨b, l, rfl, same⟩⟩

theorem strstrTurn_found (h : SetReady c ct set) (filled : set.isEmpty = false) (bytes : Bytes c.mem c.esi set) :
    (strstrTurn ct c).1 = false ∧ (strstrTurn ct c).2.eax = c.esi := by
  obtain ⟨cf, less, comparison⟩ :=
    repe_cmpsb_same (c := { c with edi := ct, eax := c.esi, ecx := c.edx }) h.forward bytes (Bytes.append_iff.mp h.text.bytes).1
  unfold strstrTurn Processor.repeCmpsb
  dsimp only
  rw [h.count, comparison]
  simp [filled]

theorem strstrTurn_next {common rest : List UInt8} {x y : UInt8} (h : SetReady c ct set) (bytes : Bytes c.mem c.esi (common ++ [x]))
    (parts : set = common ++ y :: rest) (differ : x ≠ y) : (strstrTurn ct c).1 = !decide (x = 0) ∧ (x = 0 → (strstrTurn ct c).2.eax = 0) ∧
      (strstrTurn ct c).2.esi = c.esi + 1 ∧ (strstrTurn ct c).2.mem = c.mem ∧ SetReady (strstrTurn ct c).2 ct set := by
  have front : Bytes c.mem ct (common ++ [y]) := by
    have whole := (Bytes.append_iff.mp h.text.bytes).1
    rw [parts, List.append_cons] at whole
    exact (Bytes.append_iff.mp whole).1
  have comparison := repe_cmpsb_different (c := { c with edi := ct, eax := c.esi, ecx := c.edx }) (n := set.length) h.forward bytes front differ
    (by rw [parts, List.length_append, List.length_cons]; omega)
  have last : c.mem (c.esi + BitVec.ofNat 32 (common.length + 1) - 1) = x := by
    rw [BitVec.ofNat_add, ← BitVec.add_assoc, show BitVec.ofNat 32 1 = 1 from rfl, BitVec.add_sub_cancel]
    exact (Bytes.append_iff.mp bytes).2.1
  unfold strstrTurn Processor.repeCmpsb Processor.compare
  dsimp only
  rw [h.count, comparison]
  dsimp only
  rw [last, if_neg Bool.false_ne_true]
  by_cases zero : x = 0
  · rw [decide_eq_true zero, if_pos rfl]
    exact ⟨rfl, fun _ => rfl, rfl, rfl, h.of_eq rfl rfl rfl⟩
  · rw [decide_eq_false zero, if_neg Bool.false_ne_true]
    exact ⟨rfl, fun h => absurd h zero, rfl, rfl, h.of_eq rfl rfl rfl⟩

theorem strstrTurn_empty (none : c.edx = 0) (flag : c.zf = true) : (strstrTurn ct c).1 = false ∧ (strstrTurn ct c).2.eax = c.esi := by
  unfold strstrTurn Processor.repeCmpsb
  dsimp only
  rw [none]
  simp [Processor.repWhile, flag]

/-- `a` is where the text first has the set in it, or zero. -/
def FirstAt (set l : List UInt8) (s a : Addr) : Prop :=
  ((∀ i ≤ l.length, ¬ set <+: l.drop i) → a = 0) ∧
    ∀ i ≤ l.length, set <+: l.drop i → (∀ j < i, ¬ set <+: l.drop j) → a = s + BitVec.ofNat 32 i

theorem FirstAt.here (inside : set <+: l) : FirstAt set l s s := by
  refine ⟨fun none => absurd inside (none 0 (Nat.zero_le _)), fun i _ _ fresh => ?_⟩
  cases i with
  | zero => exact (BitVec.add_zero s).symm
  | succ i => exact absurd inside (fresh 0 (Nat.succ_pos i))

theorem FirstAt.cons {a : Addr} (other : ¬ set <+: b :: l) (later : FirstAt set l (s + 1) a) : FirstAt set (b :: l) s a := by
  refine ⟨fun none => later.1 fun i inside => none (i + 1) (Nat.succ_le_succ inside), fun i inside found fresh => ?_⟩
  cases i with
  | zero => exact absurd found other
  | succ i =>
    rw [← add_ofNat_succ]
    exact later.2 i (Nat.le_of_succ_le_succ inside) found fun j before => fresh (j + 1) (Nat.succ_lt_succ before)

theorem FirstAt.short (length : l.length < set.length) : FirstAt set l s 0 := by
  have never (i : Nat) : ¬ set <+: l.drop i := fun inside => by
    have bound := inside.length_le
    rw [List.length_drop] at bound
    omega
  exact ⟨fun _ => rfl, fun i _ inside => absurd inside (never i)⟩

theorem strstr_run (h : SetReady c ct set) (filled : set.isEmpty = false) (text : Text c.mem c.esi l) (enough : l.length < fuel) :
    ∃ d, WhileLoop.run (fun c => some (strstrTurn ct c)) some fuel c = some d ∧ FirstAt set l c.esi d.eax := by
  induction l generalizing c fuel with
  | nil =>
    obtain ⟨fuel, rfl⟩ : ∃ k, fuel = k + 1 := ⟨fuel - 1, by omega⟩
    cases set with
    | nil => exact absurd filled (by decide)
    | cons y set =>
      obtain ⟨turn, eax, -⟩ := strstrTurn_next h (show Bytes c.mem c.esi ([] ++ [0]) from ⟨text, trivial⟩) (show y :: set = [] ++ y :: set from rfl) h.text.2.1.symm
      refine ⟨_, turn_stop turn, ?_⟩
      rw [eax rfl]
      exact FirstAt.short (Nat.succ_pos _)
  | cons b l ih =>
    obtain ⟨fuel, rfl⟩ : ∃ k, fuel = k + 1 := ⟨fuel - 1, by omega⟩
    have whole := text.bytes
    have nonzero := text.nonzero
    by_cases inside : set <+: b :: l
    · obtain ⟨rest, parts⟩ := inside
      rw [← parts] at whole
      obtain ⟨turn, eax⟩ := strstrTurn_found h filled (Bytes.append_iff.mp (Bytes.append_iff.mp whole).1).1
      refine ⟨_, turn_stop turn, ?_⟩
      rw [eax]
      exact FirstAt.here ⟨rest, parts⟩
    obtain ⟨common, y, rest, parts, split⟩ := mismatch inside
    rcases split with ended | ⟨x, rest', first, differ⟩
    · have positive : (0 : UInt8) ≠ y := fun zero => h.text.nonzero (by rw [parts, zero]; exact List.mem_append_right _ List.mem_cons_self)
      rw [ended] at whole
      obtain ⟨turn, eax, -⟩ := strstrTurn_next h whole parts positive
      refine ⟨_, turn_stop turn, ?_⟩
      rw [eax rfl, ended]
      exact FirstAt.short (by rw [parts, List.length_append, List.length_cons]; omega)
    · have positive : x ≠ 0 := fun zero => nonzero (by rw [first, zero]; exact List.mem_append_right _ List.mem_cons_self)
      rw [first, List.append_assoc, List.cons_append, List.append_cons] at whole
      obtain ⟨turn, -, esi, mem, ready⟩ := strstrTurn_next h (Bytes.append_iff.mp whole).1 parts differ
      rw [decide_eq_false positive] at turn
      have later := text.2.2
      rw [← esi, ← mem] at later
      obtain ⟨d, run, found⟩ := ih ready later (Nat.lt_of_succ_lt_succ enough)
      refine ⟨d, (turn_go turn).trans run, FirstAt.cons inside ?_⟩
      rw [← esi]
      exact found

theorem strstr_first (text : Text c.mem cs l) (chars : Text c.mem ct set) (room : set.length + 1 < 2 ^ 32) (enough : l.length < fuel) :
    ∃ a, strstr c cs ct fuel = some a ∧ FirstAt set l cs a := by
  obtain ⟨ready, zf, esi, mem⟩ := setLength_spec (c := { c with eax := 0, ecx := 0xffffffff, esi := cs, df := false }) rfl (al_zero rfl) rfl chars room
  unfold strstr
  dsimp only
  by_cases filled : set.isEmpty = false
  · obtain ⟨d, run, found⟩ := strstr_run ready filled (by rw [esi, mem]; exact text) enough
    rw [esi] at found
    exact ⟨d.eax, by rw [run, Option.map_some], found⟩
  · have none : set = [] := List.isEmpty_iff.mp ((Bool.not_eq_false _).mp filled)
    subst none
    obtain ⟨fuel, rfl⟩ : ∃ k, fuel = k + 1 := ⟨fuel - 1, by omega⟩
    obtain ⟨stop, eax⟩ := strstrTurn_empty ready.length zf
    refine ⟨_, congrArg (Option.map _) (turn_stop stop), ?_⟩
    show FirstAt [] l cs (strstrTurn ct _).2.eax
    rw [eax, esi]
    exact FirstAt.here List.nil_prefix

theorem strstr_first_b : ∃ a, strstr twoTexts 8 16 3 = some a ∧ FirstAt [98] [97, 98] 8 a :=
  strstr_first twoTexts_ab twoTexts_b (by decide) (by decide)

end RheeKernel.Strings
