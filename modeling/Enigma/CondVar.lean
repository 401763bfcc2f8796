import Mathlib.Data.List.Basic

namespace Enigma.CondVar

variable {ι : Type} [DecidableEq ι]

/-- The threads inside the wait of one condition variable: those blocked with
no notification pending, those notified and not yet back under the mutex, and
those that woke up without a notification. -/
structure Waiters (ι : Type) where
  waiting : List ι := []
  notified : List ι := []
  spurious : List ι := []
  deriving DecidableEq, Repr

def block (c : Waiters ι) (t : ι) : Waiters ι := { c with waiting := t :: c.waiting }

/-- The notification of one blocked thread, an arbitrary one. -/
def notifyOne (c : Waiters ι) (w : ι) : Waiters ι :=
  { c with waiting := c.waiting.erase w, notified := w :: c.notified }

/-- A notification reaches only threads that are already blocked. -/
def notifyAll (c : Waiters ι) : Waiters ι :=
  { c with waiting := [], notified := c.waiting ++ c.notified }

def wakeSpuriously (c : Waiters ι) (t : ι) : Waiters ι :=
  { c with waiting := c.waiting.erase t, spurious := t :: c.spurious }

def Awake (c : Waiters ι) (t : ι) : Prop := t ∈ c.notified ∨ t ∈ c.spurious

instance (c : Waiters ι) (t : ι) : Decidable (Awake c t) := inferInstanceAs (Decidable (_ ∨ _))

def resume (c : Waiters ι) (t : ι) : Waiters ι :=
  { c with notified := c.notified.erase t, spurious := c.spurious.erase t }

def threads (c : Waiters ι) : List ι := c.waiting ++ c.notified ++ c.spurious

theorem threads_notifyOne {c : Waiters ι} {w : ι} (h : w ∈ c.waiting) :
    (threads (notifyOne c w)).Perm (threads c) := by
  have hw := (List.perm_cons_erase h).symm
  apply List.Perm.append_right
  exact List.perm_middle.trans (hw.append_right c.notified)

theorem threads_wakeSpuriously {c : Waiters ι} {t : ι} (h : t ∈ c.waiting) :
    (threads (wakeSpuriously c t)).Perm (threads c) := by
  have hw := (List.perm_cons_erase h).symm
  have hm : (threads (wakeSpuriously c t)).Perm (t :: (c.waiting.erase t ++ c.notified ++ c.spurious)) :=
    List.perm_middle
  exact hm.trans ((hw.append_right c.notified).append_right c.spurious)

theorem threads_resume {c : Waiters ι} {t : ι} (h : Awake c t) (hn : (threads c).Nodup) :
    (threads c).Perm (t :: threads (resume c t)) := by
  obtain ⟨-, -, hdisj⟩ := List.nodup_append.mp hn
  rcases h with h | h
  · have hs : t ∉ c.spurious := fun hs => hdisj t (List.mem_append_right _ h) t hs rfl
    have hp := (List.perm_cons_erase h).append_left c.waiting
    simp only [threads, resume, List.erase_of_not_mem hs]
    exact (hp.trans List.perm_middle).append_right c.spurious
  · have hs : t ∉ c.notified := fun hs => hdisj t (List.mem_append_right _ hs) t h rfl
    simp only [threads, resume, List.erase_of_not_mem hs]
    exact ((List.perm_cons_erase h).append_left _).trans List.perm_middle

theorem wakeSpuriously_waiting_ne {c : Waiters ι} {t : ι}
    (h : (wakeSpuriously c t).waiting ≠ []) : c.waiting ≠ [] := by
  intro he
  simp [wakeSpuriously, he] at h

theorem length_notified_resume (c : Waiters ι) (t : ι) :
    c.notified.length ≤ (resume c t).notified.length + 1 := by
  have h := List.length_erase (a := t) (l := c.notified)
  simp only [resume]
  split at h <;> omega

end Enigma.CondVar
