import LeechCore.Probe.Loops
import LeechCore.Probe.Table
import LeechCore.Probe.Remove
import LeechCore.ObMap.State
import LeechCore.ObMap.Hash
import LeechCore.ObMap.Operations
import LeechCore.ObMap.Invariant
import LeechCore.ListModel
import LeechCore.ObMap.Remove
import LeechCore.ObMap.Filter
import LeechCore.ObMap.Push
import LeechCore.ObMap.Sort
import LeechCore.ObMap.Api
import LeechCore.ObMap.Refinement
import LeechCore.ObMap.Failure
import LeechCore.ObMap.Iterate
import LeechCore.ObMap.Sorted
import LeechCore.ObMap.QFind
import LeechCore.ObMap.Lock
import LeechCore.ObMap.Ownership
import LeechCore.ObMap.Allocation
import LeechCore.ObMap.Order
import LeechCore.ObMap.Shape
import LeechCore.ObMap.Close
import LeechCore.ObMap.Pages
import LeechCore.ObMap.PagesCall
import LeechCore.ObMap.Memory
import LeechCore.ObMap.Threads
import LeechCore.ObMap.Stability
