import Routemap.Treebitmap.Invariant
import Routemap.Treebitmap.Canonical
import Routemap.Treebitmap.Order
import Routemap.Treebitmap.Queries
import Routemap.Treebitmap.Compact
import Routemap.Treebitmap.Positions
import Routemap.Treebitmap.Untouched
import Routemap.Treebitmap.Pace
import Routemap.Arena.Shape
import Routemap.Arena.Indices
import Routemap.Treebitmap.Commute
import Routemap.Treebitmap.Forwarding
import Routemap.Treebitmap.Ranges
import Routemap.Treebitmap.Fuzz
import Routemap.Treebitmap.Debug
import Routemap.Treebitmap.Unpruned
import Routemap.Stride
