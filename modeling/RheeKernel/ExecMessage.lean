import RheeKernel.Execve
import RheeKernel.Printk

open ByteMemory

namespace RheeKernel

def loadingText : List Char := " [EXEC] Loading: ".toList
def argsText : List Char := " (Args: ".toList
def envsText : List Char := ", Envs: ".toList

def execFormat : List Char := " [EXEC] Loading: %s (Args: %d, Envs: %d)\n\r".toList

/-- The arguments behind the format on the stack. -/
def execArgs (filename argc envc : Nat) : Nat → Nat
  | 0 => filename
  | 1 => argc
  | _ => envc

/-- The message of `do_execve`. `%s` reads the name in the data segment of the kernel, at the address that it has in that of the caller. -/
def execMessage (kern : Nat → UInt8) (buf filename argc envc : Nat) : PrintEnd :=
  printk kern buf execFormat (execArgs filename argc envc)

/-- The numbers of arguments that `do_execve` counts, if it comes to its message. -/
def ExecState.messageCounts (s : ExecState) (c : ExecCall) : Option (Nat × Nat) :=
  match c.inode.bind s.files.inode with
  | none => none
  | some ip =>
    if ¬ ip.isReg then none
    else if execMode (s.files.cred c.task) ip &&& 1 = 0 then none
    else if ¬ c.readable then none
    else
      match count s.mem c.argv, count s.mem c.envp with
      | some argc, some envc => some (argc, envc)
      | _, _ => none

/-- The decimal digits of a number. -/
def digitCount (n : Nat) : Nat := max 1 (Nat.digits 10 n).length

section ExecMessage

variable {kern : Nat → UInt8} {buf filename argc envc : Nat}

theorem execFormat_eq : execFormat =
    loadingText ++ '%' :: 's' :: (argsText ++ '%' :: 'd' :: (envsText ++ '%' :: 'd' :: [')', '\n', '\r'])) := by decide

/-- The memory of the kernel once the text before the name is in the buffer. -/
def loadingMem (kern : Nat → UInt8) (buf : Nat) : Nat → UInt8 := (PrintBuf.puts ⟨buf, kern, 0⟩ loadingText).mem

theorem execMessage_fault (h : strlen kernelLimit (loadingMem kern buf) filename = none) :
    (execMessage kern buf filename argc envc).written = 17 := by
  unfold execMessage printk
  rw [execFormat_eq, vsprintf_text (by decide), vsprintf_string]
  have hlen : strlen kernelLimit (PrintBuf.puts ⟨buf, kern, 0⟩ loadingText).mem (execArgs filename argc envc 0) = none := h
  rw [hlen]
  exact PrintBuf.puts_len

theorem execMessage_written {n : Nat} (hargc : argc < 2 ^ 31) (henvc : envc < 2 ^ 31)
    (h : strlen kernelLimit (loadingMem kern buf) filename = some n) :
    (execMessage kern buf filename argc envc).written = n + digitCount argc + digitCount envc + 37 := by
  unfold execMessage printk
  rw [execFormat_eq, vsprintf_text (by decide), vsprintf_string]
  have hlen : strlen kernelLimit (PrintBuf.puts ⟨buf, kern, 0⟩ loadingText).mem (execArgs filename argc envc 0) = some n := h
  rw [hlen]
  dsimp only
  rw [vsprintf_text (by decide), vsprintf_decimal, vsprintf_text (by decide), vsprintf_decimal, vsprintf_last (by decide)]
  change (PrintBuf.puts _ _).len + 1 = _
  rw [PrintBuf.puts_len, PrintBuf.puts_len, PrintBuf.puts_len, PrintBuf.puts_len, PrintBuf.puts_len, printString_len,
    PrintBuf.puts_len]
  have hargs : (number (execArgs filename argc envc (0 + 1)) 10 (-1) (-1) { noFlags with sign := true }).length = digitCount argc :=
    decimal_length hargc
  have henvs : (number (execArgs filename argc envc (0 + 1 + 1)) 10 (-1) (-1) { noFlags with sign := true }).length = digitCount envc :=
    decimal_length henvc
  rw [hargs, henvs]
  change 0 + 17 + max 0 n + 8 + digitCount argc + 8 + digitCount envc + 3 + 1 = n + digitCount argc + digitCount envc + 37
  omega

end ExecMessage

theorem countFrom_lt {mem : Nat → UInt8} {n tmp i k : Nat} (h : countFrom mem n tmp i = some k) : k < i + n := by
  induction n generalizing tmp i with
  | zero => cases h
  | succ n ih =>
    unfold countFrom at h
    split at h
    next =>
      cases Option.some.inj h
      omega
    next =>
      have hlt := ih h
      omega

theorem count_lt {mem : Nat → UInt8} {argv k : Nat} (h : count mem argv = some k) : k < 2 ^ 31 := by
  have hlimit : segLimit = 0x4000000 := rfl
  unfold count at h
  split at h
  next =>
    cases Option.some.inj h
    omega
  next =>
    have hlt := countFrom_lt h
    omega

namespace ExecState

variable {s : ExecState} {c : ExecCall} {kern : Nat → UInt8} {buf filename argc envc : Nat}

theorem messageCounts_lt (h : s.messageCounts c = some (argc, envc)) : argc < 2 ^ 31 ∧ envc < 2 ^ 31 := by
  unfold messageCounts at h
  split at h
  next => cases h
  next =>
    split at h
    next => cases h
    next =>
      split at h
      next => cases h
      next =>
        split at h
        next => cases h
        next =>
          split at h
          next hargc henvc =>
            cases h
            exact ⟨count_lt hargc, count_lt henvc⟩
          next => cases h

/-- The message that the call prints, if it comes to it, fits into the buffer of `printk` with its zero byte. -/
def MessageFits (s : ExecState) (c : ExecCall) (kern : Nat → UInt8) (buf filename : Nat) : Prop :=
  ∀ argc envc, s.messageCounts c = some (argc, envc) → (execMessage kern buf filename argc envc).written ≤ printBytes

/-- The string that the kernel has at the address of the name, where it has one, leaves room for the rest of the message. -/
def MessageShort (s : ExecState) (c : ExecCall) (kern : Nat → UInt8) (buf filename : Nat) : Prop :=
  ∀ argc envc, s.messageCounts c = some (argc, envc) → ∀ n, strlen kernelLimit (loadingMem kern buf) filename = some n →
    n + digitCount argc + digitCount envc ≤ 987

/-- When the call comes to its message, as many bytes are stored as the string at the address of the name and the numbers need. -/
theorem message_written_le (h : s.messageCounts c = some (argc, envc)) :
    (execMessage kern buf filename argc envc).written ≤ printBytes ↔
      ∀ n, strlen kernelLimit (loadingMem kern buf) filename = some n → n + digitCount argc + digitCount envc ≤ 987 := by
  have hbytes : printBytes = 1024 := rfl
  obtain ⟨hargc, henvc⟩ := messageCounts_lt h
  cases hlen : strlen kernelLimit (loadingMem kern buf) filename with
  | none =>
    rw [execMessage_fault hlen]
    constructor
    · intro _ n hn
      cases hn
    · intro _
      omega
  | some n =>
    rw [execMessage_written hargc henvc hlen]
    constructor
    · intro hle m hm
      cases Option.some.inj hm
      omega
    · intro hshort
      have hle := hshort n rfl
      omega

/-- The message fits just when the string that the kernel reads is short enough. -/
theorem message_fits_iff : s.MessageFits c kern buf filename ↔ s.MessageShort c kern buf filename := by
  constructor
  · intro hfits argc envc hcounts
    exact (message_written_le hcounts).mp (hfits argc envc hcounts)
  · intro hshort argc envc hcounts
    exact (message_written_le hcounts).mpr (hshort argc envc hcounts)

end ExecState

/-- Two neighbouring buffers, filled with the letter `a`, and zeros behind them. -/
def sampleKernel : Nat → UInt8 := fun x => if 0x1ff800 ≤ x ∧ x < 0x200000 then 97 else 0

theorem sampleKernel_strlen : strlen kernelLimit (loadingMem sampleKernel 0x20000) 0x1ff800 = some 2048 := by
  have hmem : ∀ x, 0x1ff800 ≤ x → loadingMem sampleKernel 0x20000 x = sampleKernel x := by
    intro x hx
    exact PrintBuf.puts_other (.inr (by change 0x20000 + 0 + 17 ≤ x; omega))
  have hskip : skipString (loadingMem sampleKernel 0x20000) (kernelLimit - 0x1ff800) 0x1ff800 =
      some (0x1ff800 + (List.replicate 2048 (97 : UInt8)).length + 1) := by
    apply skipString_eq
    · intro k hk
      rw [hmem _ (by omega)]
      rw [List.length_append, List.length_replicate, List.length_singleton] at hk
      unfold sampleKernel
      by_cases hlt : k < 2048
      · rw [if_pos (by omega), List.getElem_append_left (by rwa [List.length_replicate]), List.getElem_replicate]
      · rw [if_neg (by omega), List.getElem_append_right (by rw [List.length_replicate]; omega), List.getElem_singleton]
    · intro hzero
      exact absurd (List.eq_of_mem_replicate hzero) (by decide)
    · rw [List.length_replicate]
      decide
  unfold strlen
  rw [hskip, List.length_replicate]
  rfl

/-- A call of `execve` that comes to its message, and a name at an address where the kernel has the two buffers. -/
theorem message_overflows : sampleExec.messageCounts (sampleCall (sampleElf 4) 16 32 1) = some (1, 1) ∧
    (execMessage sampleKernel 0x20000 0x1ff800 1 1).written = 2087 ∧
    ¬ sampleExec.MessageFits (sampleCall (sampleElf 4) 16 32 1) sampleKernel 0x20000 0x1ff800 := by
  have hcounts : sampleExec.messageCounts (sampleCall (sampleElf 4) 16 32 1) = some (1, 1) := by decide +kernel
  have hwritten : (execMessage sampleKernel 0x20000 0x1ff800 1 1).written = 2087 :=
    execMessage_written (by decide) (by decide) sampleKernel_strlen
  refine ⟨hcounts, hwritten, fun hfits => ?_⟩
  have hle := hfits 1 1 hcounts
  rw [hwritten] at hle
  exact absurd hle (by decide)

end RheeKernel
