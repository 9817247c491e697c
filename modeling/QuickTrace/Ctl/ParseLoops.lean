/-
QuickTrace.Ctl.ParseLoops — the loops over the descriptors of a file.

qttail (`Messages::parse`) and qtctl (`MessageIterator`) both call `parse` as
long as there is more. `parse` returns without having moved if it finds a NUL
where a descriptor should start, and then the next call finds it again
(`rounds_atNul`). Everything else that `parse` returns is behind the position
it started from, so nothing else keeps a loop going (`rounds_end`). `ends_iff`
puts both together for the loops of the two programs.
-/
import QuickTrace.Dict.MappedParser
import QuickTrace.Tail.Messages
import QuickTrace.Ctl.Qtctl

namespace QuickTrace

open QuickTrace.Lib

namespace ParseLoops

open MessageParser

/-! ## The loops -/

/-- What `Messages::parse` does with a message; `none` if no formatter can be
built. -/
def emplaceMessage (T : MessageTable) (msg : Message) : Option MessageTable :=
  (T.tryEmplace msg).toOption

/-- What `qtctl on` and `qtctl off` do with a message. -/
def visitMessage (c : Qtctl.Command) (cs : MsgCounters) (msg : Message) : Option MsgCounters :=
  some (Qtctl.visit c cs msg)

section

variable {σ : Type}

/-- After some rounds the loop does not run any more. -/
def Terminates (mem : List UInt8) (use : σ → Message → Option σ) (s : σ) (ps : MessageParser) :
    Prop :=
  ∃ n, ∀ s' ps', rounds mem use n s ps ≠ .running s' ps'

/-- Every `parse` of the loop that returns has moved the position. -/
def Advances (mem : List UInt8) (use : σ → Message → Option σ) (s : σ) (ps : MessageParser) :
    Prop :=
  ∀ n s' ps' msg ps'', rounds mem use n s ps = .running s' ps' → ps'.more = true →
    parseAt mem ps' = some (msg, ps'') → ps'.p < ps''.p

/-- There is more, and it starts with a NUL. -/
def AtNul (mem : List UInt8) (ps : MessageParser) : Prop :=
  ps.more = true ∧ mem[ps.p]? = some 0

/-- The loop never comes to a NUL. -/
def NeverAtNul (mem : List UInt8) (use : σ → Message → Option σ) (s : σ) (ps : MessageParser) :
    Prop :=
  ∀ n s' ps', rounds mem use n s ps = .running s' ps' → ¬ AtNul mem ps'

/-! ## Rounds -/

variable {mem : List UInt8} {use : σ → Message → Option σ}

/-- At a NUL nothing moves. -/
theorem parseAt_atNul {ps : MessageParser} (h : AtNul mem ps) :
    parseAt mem ps = some (Message.empty, ps) := by
  unfold parseAt
  rw [if_pos h.1, h.2, Option.bind_some, if_pos rfl]

/-- A loop that has come to a NUL runs forever. -/
theorem rounds_atNul (huse : ∀ s, ∃ s', use s Message.empty = some s') :
    ∀ (n : Nat) (s : σ) {ps : MessageParser}, AtNul mem ps →
      ∃ s', rounds mem use n s ps = .running s' ps
  | 0, s, ps, h => ⟨s, rfl⟩
  | n + 1, s, ps, h => by
      obtain ⟨s₁, hs₁⟩ := huse s
      obtain ⟨s', hs'⟩ := rounds_atNul huse n s₁ h
      refine ⟨s', ?_⟩
      rw [rounds, if_pos h.1, parseAt_atNul h]
      dsimp only
      rw [hs₁]
      exact hs'

/-- A loop that never comes to a NUL has no more rounds than there are
bytes. -/
theorem rounds_end : ∀ (d : Nat) {s : σ} {ps : MessageParser}, ps.end_ - ps.p ≤ d →
    NeverAtNul mem use s ps → ∀ s' ps', rounds mem use (d + 1) s ps ≠ .running s' ps' := by
  intro d
  induction d with
  | zero =>
    intro s ps hd h s' ps' hrun
    have hmore : ¬ ps.more = true := by
      unfold more
      rw [decide_eq_true_eq]
      omega
    rw [rounds, if_neg hmore] at hrun
    cases hrun
  | succ d ih =>
    intro s ps hd h s' ps' hrun
    rw [rounds] at hrun
    by_cases hmore : ps.more = true
    · rw [if_pos hmore] at hrun
      rcases hparse : parseAt mem ps with _ | ⟨msg, ps₁⟩
      · rw [hparse] at hrun
        cases hrun
      · rw [hparse] at hrun
        dsimp only at hrun
        rcases hs₁ : use s msg with _ | s₁
        · rw [hs₁] at hrun
          cases hrun
        · rw [hs₁] at hrun
          dsimp only at hrun
          rcases parseAt_step hmore hparse with ⟨hnul, -, -⟩ | ⟨-, hlt, -, hend, -⟩
          · exact h 0 s ps rfl ⟨hmore, hnul⟩
          · have hlt' : ps.p < ps.end_ := by simpa [more] using hmore
            refine ih (by omega) (fun n s₂ ps₂ hn => h (n + 1) s₂ ps₂ ?_) s' ps' hrun
            rw [rounds, if_pos hmore, hparse]
            dsimp only
            rw [hs₁]
            exact hn
    · rw [if_neg hmore] at hrun
      cases hrun

/-- Only a NUL keeps a loop from ending. -/
theorem terminates_iff (huse : ∀ s, ∃ s', use s Message.empty = some s') (s : σ)
    (ps : MessageParser) : Terminates mem use s ps ↔ NeverAtNul mem use s ps := by
  constructor
  · rintro ⟨N, hN⟩ n s' ps' hrun hnul
    rcases Nat.le_total N n with hle | hle
    · have hadd := rounds_add mem use (n - N) N s ps
      rw [Nat.add_sub_cancel' hle, hrun] at hadd
      revert hadd hN
      rcases rounds mem use N s ps with ⟨s₁, ps₁⟩ | ⟨s₁, ps₁⟩ | s₁
      · intro hN _
        exact hN s₁ ps₁ rfl
      · intro _ hadd
        cases hadd
      · intro _ hadd
        cases hadd
    · have hadd := rounds_add mem use (N - n) n s ps
      rw [Nat.add_sub_cancel' hle, hrun] at hadd
      obtain ⟨s'', hs''⟩ := rounds_atNul huse (N - n) s' hnul
      exact hN s'' ps' (hadd.trans hs'')
  · intro h
    exact ⟨_, rounds_end _ (Nat.le_refl _) h⟩

/-- Only at a NUL does `parse` not move. -/
theorem advances_iff (s : σ) (ps : MessageParser) :
    Advances mem use s ps ↔ NeverAtNul mem use s ps := by
  constructor
  · intro h n s' ps' hrun hnul
    exact Nat.lt_irrefl _ (h n s' ps' _ _ hrun hnul.1 (parseAt_atNul hnul))
  · intro h n s' ps' msg ps'' hrun hmore hparse
    rcases parseAt_step hmore hparse with ⟨hnul, -, -⟩ | ⟨-, hlt, -⟩
    · exact absurd ⟨hmore, hnul⟩ (h n s' ps' hrun)
    · exact hlt

end

/-! ## The two programs -/

/-- An empty message can always be described. -/
theorem emplaceMessage_empty (T : MessageTable) :
    ∃ T', emplaceMessage T Message.empty = some T' := by
  unfold emplaceMessage MessageTable.tryEmplace
  split
  · exact ⟨T, rfl⟩
  · exact ⟨_, rfl⟩

theorem visitMessage_empty (c : Qtctl.Command) (cs : MsgCounters) :
    ∃ cs', visitMessage c cs Message.empty = some cs' := ⟨_, rfl⟩

/-- For every byte string, from every position and with every state: the loop
of qttail and the loop of qtctl end, and every `parse` in them moves the
position, exactly if they never come to a NUL where a descriptor should
start. -/
theorem ends_iff (mem : List UInt8) (ps : MessageParser) (T : MessageTable) (c : Qtctl.Command)
    (cs : MsgCounters) :
    (Terminates mem emplaceMessage T ps ∧ Advances mem emplaceMessage T ps
        ↔ NeverAtNul mem emplaceMessage T ps)
      ∧ (Terminates mem (visitMessage c) cs ps ∧ Advances mem (visitMessage c) cs ps
        ↔ NeverAtNul mem (visitMessage c) cs ps) := by
  constructor
  · rw [terminates_iff emplaceMessage_empty, advances_iff, and_self_iff]
  · rw [terminates_iff (visitMessage_empty c), advances_iff, and_self_iff]

/-- A dictionary that consists of one NUL. -/
theorem loops_forever :
    (¬ Terminates (List.replicate 1025 0) emplaceMessage MessageTable.initial
      (.initialized (.ofSize 0) (List.replicate 1025 0)))
    ∧ ¬ Terminates (List.replicate 1025 0) (visitMessage ⟨true, none, -1⟩) ⟨1, fun _ => .zero⟩
      (.initialized (.ofSize 0) (List.replicate 1025 0)) := by
  have hnul : AtNul (List.replicate 1025 0)
      (.initialized (.ofSize 0) (List.replicate 1025 0)) := by
    unfold AtNul
    decide +kernel
  constructor
  · rintro ⟨n, hn⟩
    obtain ⟨T', hT'⟩ := rounds_atNul emplaceMessage_empty n MessageTable.initial hnul
    exact hn _ _ hT'
  · rintro ⟨n, hn⟩
    obtain ⟨cs', hcs'⟩ := rounds_atNul (visitMessage_empty ⟨true, none, -1⟩) n
      ⟨1, fun _ => .zero⟩ hnul
    exact hn _ _ hcs'

end ParseLoops

end QuickTrace
