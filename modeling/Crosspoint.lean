import Crosspoint.Theorems.Bench
import Crosspoint.Theorems.BitPool
import Crosspoint.Theorems.Buses
import Crosspoint.Theorems.Cascade
import Crosspoint.Theorems.Coils
import Crosspoint.Theorems.Columns
import Crosspoint.Theorems.Contacts
import Crosspoint.Theorems.DualCoil
import Crosspoint.Theorems.Events
import Crosspoint.Theorems.Expiry
import Crosspoint.Theorems.GPIO
import Crosspoint.Theorems.History
import Crosspoint.Theorems.LatchingRelay
import Crosspoint.Theorems.Levels
import Crosspoint.Theorems.MCP23017
import Crosspoint.Theorems.Memory
import Crosspoint.Theorems.Nested
import Crosspoint.Theorems.OnTime
import Crosspoint.Theorems.Quiescent
import Crosspoint.Theorems.Rig
import Crosspoint.Theorems.Segments
import Crosspoint.Theorems.ShiftRegister
import Crosspoint.Theorems.Stack
import Crosspoint.Theorems.Twins
