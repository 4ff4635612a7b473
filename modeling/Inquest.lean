import Inquest.Config
import Inquest.Event
import Inquest.Explanation.Answer
import Inquest.Explanation.Block
import Inquest.Explanation.Cause
import Inquest.Explanation.Graph
import Inquest.Explanation.Node
import Inquest.Explanation.Placement
import Inquest.Explanation.Terminal
import Inquest.Fault
import Inquest.Ident
import Inquest.IdentSet
import Inquest.Loop
import Inquest.Program.Basic
import Inquest.Program.Dispatch
import Inquest.Program.Draft
import Inquest.Program.Parameter
import Inquest.Proofs.Chase
import Inquest.Proofs.Explanation.Additions
import Inquest.Proofs.Explanation.Answers
import Inquest.Proofs.Explanation.Blocks
import Inquest.Proofs.Explanation.Causes
import Inquest.Proofs.Explanation.Contents
import Inquest.Proofs.Explanation.History
import Inquest.Proofs.Explanation.Levels
import Inquest.Proofs.Explanation.Depths
import Inquest.Proofs.Explanation.Extension
import Inquest.Proofs.Explanation.Forest
import Inquest.Proofs.Explanation.Ownership
import Inquest.Proofs.Explanation.Placement
import Inquest.Proofs.Explanation.Shape
import Inquest.Proofs.Explanation.Tidy
import Inquest.Proofs.Explanation.Waiting
import Inquest.Proofs.Trace.Dependence
import Inquest.Proofs.Trace.Order
import Inquest.Proofs.Trace.Recording
import Inquest.Proofs.Trace.Window
import Inquest.Proofs.Unexecuted.Exceptions
import Inquest.Proofs.Unexecuted.Finish
import Inquest.Proofs.Unexecuted.Growth
import Inquest.Proofs.Unexecuted.Horizon
import Inquest.Proofs.Unexecuted.Reference
import Inquest.Proofs.Unexecuted.Requests
import Inquest.Proofs.Unexecuted.Sound
import Inquest.Proofs.Unexecuted.Visit
import Inquest.Proofs.Walk
import Inquest.Trace.Basic
import Inquest.Trace.Frame
import Inquest.Trace.Index
import Inquest.Trace.Recorder
import Inquest.Unexecuted.Analysis
import Inquest.Unexecuted.Expectation
import Inquest.Unexecuted.Question
import Inquest.Unexecuted.Reason
import Inquest.Unexecuted.Snapshot
import Inquest.Walk
import Inquest.Proofs.Explanation.Rounds
import Inquest.Proofs.Explanation.Closure
import Inquest.Proofs.Program.Dispatch
import Inquest.Proofs.Program.Inheritance
import Inquest.Proofs.Program.Numbering
import Inquest.Proofs.Unexecuted.Guards
import Inquest.Proofs.Unexecuted.Evidence
import Inquest.Proofs.Unexecuted.Conversation
import Inquest.Proofs.Unexecuted.Boundary
import Inquest.Proofs.Trace.Continuation
import Inquest.Proofs.Trace.Invocations
import Inquest.Proofs.Trace.Chains
import Inquest.Proofs.Unexecuted.Permanence
import Inquest.Proofs.Unexecuted.Future
import Inquest.Proofs.Explanation.Nesting
import Inquest.Proofs.Explanation.Iterations
import Inquest.Proofs.Explanation.LoopKeys
import Inquest.Proofs.Explanation.Collapse
import Inquest.Proofs.Explanation.Membership
import Inquest.Proofs.Explanation.Controls
import Inquest.Proofs.Explanation.Permanence
import Inquest.Proofs.Explanation.Announcements
import Inquest.Proofs.Explanation.Terminals
import Inquest.Proofs.Program.Parameters
import Inquest.Proofs.Unexecuted.Translation
import Inquest.Proofs.Unexecuted.Callers
import Inquest.Proofs.Unexecuted.Receivers
import Inquest.Proofs.Explanation.Provenance
import Inquest.Proofs.Trace.Frames
import Inquest.Proofs.Trace.Routes
import Inquest.Proofs.Explanation.Memos
import Inquest.Proofs.Program.Resolution
import Inquest.Proofs.Explanation.Construction
import Inquest.Proofs.Explanation.Regrouping
import Inquest.Proofs.Explanation.Crests
import Inquest.Proofs.Explanation.Creation
import Inquest.Proofs.Program.Consistency
