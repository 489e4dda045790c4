-- SUMMARY: Client commands and the key-value state machine they act on.

/-!
# Commands

`Command.h` and `StateMachine.h`: the three operations a log entry can carry and
what applying one does to the key-value map. The byte encoding of a command is in
`RaftKv/Wire/Command.lean`.
-/

namespace RaftKv

/-- `std::string` and `std::vector<char>`: a sequence of bytes. -/
abbrev Bytes := List UInt8

/-- `enum class OpType : uint8_t`. The underlying type is fixed, so a value read
from the wire may be any byte; the three named ones are below. -/
structure OpType where
  code : UInt8
  deriving DecidableEq, Repr

namespace OpType

def put : OpType := ⟨1⟩
def delete : OpType := ⟨2⟩
def noop : OpType := ⟨3⟩

end OpType

structure Command where
  oper : OpType
  key : Bytes := []
  val : Bytes := []
  deriving DecidableEq, Repr

/-! ## The state machine -/

/-- `StateMachine::db`. -/
structure StateMachine where
  db : Bytes → Option Bytes

namespace StateMachine

def empty : StateMachine := ⟨fun _ => none⟩

def apply (sm : StateMachine) (cmd : Command) : StateMachine :=
  if cmd.oper = .put then ⟨fun k => if k = cmd.key then some cmd.val else sm.db k⟩
  else if cmd.oper = .delete then ⟨fun k => if k = cmd.key then none else sm.db k⟩
  else sm

/-- `StateMachine::get`: a missing key reads as the empty string. -/
def get (sm : StateMachine) (key : Bytes) : Bytes :=
  (sm.db key).getD []

/-- Apply commands in order. -/
def applyAll (sm : StateMachine) (cmds : List Command) : StateMachine :=
  cmds.foldl apply sm

@[simp] theorem applyAll_nil (sm : StateMachine) : sm.applyAll [] = sm := rfl

theorem applyAll_append (sm : StateMachine) (cs ds : List Command) :
    sm.applyAll (cs ++ ds) = (sm.applyAll cs).applyAll ds :=
  List.foldl_append

end StateMachine

end RaftKv
